import DotCompletion.Proofs.Grammar.Plain

/-!
# Replacing the last operand

Two sources that agree up to their last operand are read alike as far as it: a
plain expression is a row of operations, one inside the other on the right, around
the last operand, and what is read for that operand does not change the row.

A form either stays in front of the last operand (`Form.Stays`) or goes past it
(`Form.Passes`). Both are statements about all endings that a source can be given
instead of the one at hand, and both are put together along a form.
-/

namespace DotCompletion

open Skim

namespace NodeKind

/-- The operations of plain expressions. -/
def operations : List NodeKind := [.unaryExpr, .binaryExpr, .assignExpr, .ternaryExpr]

end NodeKind

/-- An operation without its last operand. -/
structure Layer where
  kind : NodeKind
  place : Position
  /-- The nodes in front of the last operand. -/
  front : List Node
  operation : kind ∈ NodeKind.operations
  front_ne : front ≠ []

/-- The operation with its last operand. -/
def Layer.wrap (l : Layer) (x : Node) : Node := .around l.kind none l.place (l.front ++ [x])

/-- Operations one inside the other around a last operand. -/
def Node.wrapped (layers : List Layer) (x : Node) : Node := layers.foldr Layer.wrap x

namespace Grammar

/-- What may stand behind an operand of a plain expression. -/
def follow : List TokenKind := binarySigns ++ assignments ++ [.question, .colon, .semicolon]

/-- The signs of plain expressions. -/
def plainSigns : List TokenKind :=
  unaryOperators ++ binarySigns ++ assignments ++ [.question, .colon]

/-- The kinds of the tokens of plain expressions. -/
def plainKinds : List TokenKind := .intLiteral :: TokenKind.identifiers ++ plainSigns

end Grammar

open Grammar

/-- The tokens are those of a plain expression that goes on with an operand. -/
structure LeadsUp (ts : List Token) : Prop where
  plain : ∀ t ∈ ts, t.kind ∈ plainKinds
  sign : ∀ t ∈ ts.getLast?, t.kind ∈ plainSigns

namespace LeadsUp

theorem nil : LeadsUp [] := ⟨by rintro _ ⟨⟩, by rintro _ ⟨⟩⟩

theorem cons {t : Token} {ts : List Token} (ht : t.kind ∈ plainSigns) (h : LeadsUp ts) :
    LeadsUp (t :: ts) where
  plain := by
    intro u hu
    rcases List.mem_cons.mp hu with rfl | hu
    · exact List.mem_append_right _ ht
    · exact h.plain u hu
  sign := by
    cases ts with
    | nil =>
        rintro _ ⟨⟩
        exact ht
    | cons v ts => exact fun u hu => h.sign u (by rwa [List.getLast?_cons_cons] at hu)

theorem append {used ts : List Token} (hused : ∀ t ∈ used, t.kind ∈ plainKinds) (hts : ts ≠ [])
    (h : LeadsUp ts) : LeadsUp (used ++ ts) where
  plain := fun t ht => (List.mem_append.mp ht).elim (hused t) (h.plain t)
  sign := by
    intro t ht
    rw [List.getLast?_append, List.getLast?_eq_some_getLast hts, Option.some_or,
      ← List.getLast?_eq_some_getLast hts] at ht
    exact h.sign t ht

end LeadsUp

/-- Tokens with which a source can end instead of a name and a semicolon: they
begin with an operand. -/
structure Ending (us : List Token) : Prop where
  first : kindAt us 0 ∈ [TokenKind.identifier, .floatLiteral]
  second : kindAt us 1 ≠ .arrow

/-- An ending that begins with the operand `x`, in front of `rest`. -/
structure EndsWith (us : List Token) (x : Node) (rest : List Token) : Prop extends Ending us where
  behind : kindAt rest 0 ∈ [TokenKind.semicolon, .identifier]
  reads : ∀ c : Cursor, c.rest = us → ∃ c', Rule.unary.Reads [] c [x] c' ∧ c'.rest = rest

namespace Form

/-- On tokens that begin with `used` and `ahead` the form takes those of `used`,
whatever the ending. -/
structure Stays (f : Form) (frame : Frame) (used ahead : List Token) (frame' : Frame) :
    Prop where
  plain : ∀ t ∈ used, t.kind ∈ plainKinds
  reads : ∀ us, Ending us → ∀ c : Cursor, c.rest = used ++ (ahead ++ us) →
    ∃ c', f.Does Rule.Reads frame c frame' c' ∧ c'.rest = ahead ++ us

/-- On tokens that begin with `ts` the form takes these and the first operand of
the ending, which it puts behind `front` and inside the same operations whatever
it is. -/
structure Passes (f : Form) (frame : Frame) (ts : List Token) (front : Frame)
    (layers : List Layer) : Prop where
  leads : LeadsUp ts
  reads : ∀ us x rest, EndsWith us x rest → ∀ c : Cursor, c.rest = ts ++ us →
    ∃ c', f.Does Rule.Reads frame c (front ++ [x.wrapped layers]) c' ∧ c'.rest = rest

/-- Behind the last operand the form does nothing. -/
def Idles (f : Form) : Prop := ∀ (frame : Frame) (c : Cursor),
  kindAt c.rest 0 ∈ [TokenKind.semicolon, .identifier] → f.Does Rule.Reads frame c frame c

variable {f g : Form} {frame frame' middle front : Frame} {used used' ahead ts : List Token}
  {layers : List Layer} {t : Token}

namespace Stays

theorem imp (h : f.Stays frame used ahead frame')
    (himp : ∀ us, Ending us → ∀ (c : Cursor) frame' c', c.rest = used ++ (ahead ++ us) →
      f.Does Rule.Reads frame c frame' c' → g.Does Rule.Reads frame c frame' c') :
    g.Stays frame used ahead frame' where
  plain := h.plain
  reads := by
    intro us hus c hrest
    obtain ⟨c', hdoes, hrest'⟩ := h.reads us hus c hrest
    exact ⟨c', himp us hus c _ _ hrest hdoes, hrest'⟩

theorem rule {r : Rule} (h : r.form.Stays frame used ahead frame') :
    (Form.rule r).Stays frame used ahead frame' :=
  h.imp fun _ _ _ _ _ _ => Rule.Reads.intro

theorem done (frame : Frame) (ahead : List Token) : Stays .done frame [] ahead frame where
  plain := by rintro _ ⟨⟩
  reads := fun _ _ c hrest => ⟨c, ⟨rfl, rfl⟩, hrest⟩

theorem token (frame : Frame) (ht : t.kind ∈ plainKinds) (ahead : List Token) :
    Stays .token frame [t] ahead (frame ++ [Node.leaf .token t]) where
  plain := fun u hu => List.mem_singleton.mp hu ▸ ht
  reads := fun _ _ c hrest =>
    ⟨c.advance, ⟨by rw [Cursor.next_eq hrest], rfl⟩, Cursor.rest_advance hrest⟩

theorem seq (h : f.Stays frame used (used' ++ ahead) middle)
    (h' : g.Stays middle used' ahead frame') : (f ++ g).Stays frame (used ++ used') ahead frame' where
  plain := fun t ht => (List.mem_append.mp ht).elim (h.plain t) (h'.plain t)
  reads := by
    intro us hus c hrest
    obtain ⟨between, hfirst, hbetween⟩ :=
      h.reads us hus c (by rw [hrest, List.append_assoc, List.append_assoc])
    obtain ⟨c', hsecond, hrest'⟩ :=
      h'.reads us hus between (by rw [hbetween, List.append_assoc])
    exact ⟨c', ⟨middle, between, hfirst, hsecond⟩, hrest'⟩

theorem within (h : f.Stays [] used ahead frame') (frame : Frame) :
    (Form.within f).Stays frame used ahead (frame ++ frame') where
  plain := h.plain
  reads := by
    intro us hus c hrest
    obtain ⟨c', hdoes, hrest'⟩ := h.reads us hus c hrest
    exact ⟨c', ⟨frame', hdoes, rfl⟩, hrest'⟩

theorem node (kind : NodeKind) (h : f.Stays frame (t :: used) ahead frame') :
    (Form.node kind f).Stays frame (t :: used) ahead
      [.around kind none t.span.start frame'] where
  plain := h.plain
  reads := by
    intro us hus c hrest
    obtain ⟨c', hdoes, hrest'⟩ := h.reads us hus c hrest
    exact ⟨c', ⟨frame', hdoes, by rw [Cursor.next_eq hrest]; rfl⟩, hrest'⟩

/-- What a form stays in front of, its second part may go past. -/
theorem seq_passes (h : f.Stays frame used ts middle) (h' : g.Passes middle ts front layers)
    (hleads : LeadsUp (used ++ ts)) : (f ++ g).Passes frame (used ++ ts) front layers where
  leads := hleads
  reads := by
    intro us x rest hus c hrest
    obtain ⟨between, hfirst, hbetween⟩ :=
      h.reads us hus.toEnding c (by rw [hrest, List.append_assoc])
    obtain ⟨c', hsecond, hrest'⟩ := h'.reads us x rest hus between hbetween
    exact ⟨c', ⟨middle, between, hfirst, hsecond⟩, hrest'⟩

end Stays

namespace Passes

theorem imp (h : f.Passes frame ts front layers)
    (himp : ∀ us, Ending us → ∀ (c : Cursor) frame' c', c.rest = ts ++ us →
      f.Does Rule.Reads frame c frame' c' → g.Does Rule.Reads frame c frame' c') :
    g.Passes frame ts front layers where
  leads := h.leads
  reads := by
    intro us x rest hus c hrest
    obtain ⟨c', hdoes, hrest'⟩ := h.reads us x rest hus c hrest
    exact ⟨c', himp us hus.toEnding c _ _ hrest hdoes, hrest'⟩

theorem rule {r : Rule} (h : r.form.Passes frame ts front layers) :
    (Form.rule r).Passes frame ts front layers :=
  h.imp fun _ _ _ _ _ _ => Rule.Reads.intro

theorem seq_idle (h : f.Passes frame ts front layers) (hg : g.Idles) :
    (f ++ g).Passes frame ts front layers where
  leads := h.leads
  reads := by
    intro us x rest hus c hrest
    obtain ⟨c', hdoes, hrest'⟩ := h.reads us x rest hus c hrest
    exact ⟨c', ⟨_, c', hdoes, hg _ _ (by rw [hrest']; exact hus.behind)⟩, hrest'⟩

theorem within (h : f.Passes [] ts [] layers) (frame : Frame) :
    (Form.within f).Passes frame ts frame layers where
  leads := h.leads
  reads := by
    intro us x rest hus c hrest
    obtain ⟨c', hdoes, hrest'⟩ := h.reads us x rest hus c hrest
    exact ⟨c', ⟨_, hdoes, rfl⟩, hrest'⟩

/-- An operation around what is read is one more around the last operand. -/
theorem node {kind : NodeKind} (hkind : kind ∈ NodeKind.operations) (hfront : front ≠ [])
    (h : f.Passes frame (t :: ts) front layers) :
    (Form.node kind f).Passes frame (t :: ts) []
      (⟨kind, t.span.start, front, hkind, hfront⟩ :: layers) where
  leads := h.leads
  reads := by
    intro us x rest hus c hrest
    obtain ⟨c', hdoes, hrest'⟩ := h.reads us x rest hus c hrest
    exact ⟨c', ⟨_, hdoes, by rw [Cursor.next_eq hrest]; rfl⟩, hrest'⟩

end Passes

/-! ### Operations -/

theorem plainKinds_of_sign {kind : TokenKind} (h : kind ∈ plainSigns) : kind ∈ plainKinds :=
  List.mem_append_right _ h

theorem Stays.operation {r : Rule} (kind : NodeKind) (ht : t.kind ∈ plainSigns)
    (h : (Form.rule r).Stays [] used ahead frame') (frame : Frame) :
    (Form.node kind (.token ++ .call r)).Stays frame (t :: used) ahead
      [.around kind none t.span.start (frame ++ [Node.leaf .token t] ++ frame')] :=
  ((Stays.token frame (plainKinds_of_sign ht) (used ++ ahead)).seq (h.within _)).node kind

theorem Passes.operation {r : Rule} {kind : NodeKind} (hkind : kind ∈ NodeKind.operations)
    (ht : t.kind ∈ plainSigns) (h : (Form.rule r).Passes [] ts [] layers) (frame : Frame) :
    (Form.node kind (.token ++ .call r)).Passes frame (t :: ts) []
      (⟨kind, t.span.start, frame ++ [Node.leaf .token t], hkind, by simp⟩ :: layers) :=
  ((Stays.token frame (plainKinds_of_sign ht) ts).seq_passes (h.within _)
    (h.leads.cons ht)).node hkind (by simp)

theorem Stays.optional {kinds : List TokenKind} (ht : t.kind ∈ kinds)
    (h : f.Stays frame (t :: used) ahead frame') :
    (Form.optional kinds f).Stays frame (t :: used) ahead frame' :=
  h.imp fun _ _ _ _ _ hrest hdoes =>
    .inl ⟨by rw [hrest]; exact List.contains_iff_mem.mpr ht, hdoes⟩

theorem Passes.optional {kinds : List TokenKind} (ht : t.kind ∈ kinds)
    (h : f.Passes frame (t :: ts) front layers) :
    (Form.optional kinds f).Passes frame (t :: ts) front layers :=
  h.imp fun _ _ _ _ _ hrest hdoes =>
    .inl ⟨by rw [hrest]; exact List.contains_iff_mem.mpr ht, hdoes⟩

theorem Stays.optional_idle {kinds : List TokenKind} (ht : t.kind ∉ kinds) (f : Form)
    (frame : Frame) : (Form.optional kinds f).Stays frame [] (t :: ts) frame :=
  (Stays.done frame (t :: ts)).imp fun _ _ _ _ _ hrest hdoes =>
    .inr ⟨by rw [hrest]; exact Bool.eq_false_iff.mpr fun h => ht (List.contains_iff_mem.mp h),
      hdoes⟩

theorem optional_idles {kinds : List TokenKind}
    (hkinds : ∀ k ∈ [TokenKind.semicolon, .identifier], k ∉ kinds) (f : Form) :
    (Form.optional kinds f).Idles := fun _ _ hnext =>
  .inr ⟨Bool.eq_false_iff.mpr fun h => hkinds _ hnext (List.contains_iff_mem.mp h), rfl, rfl⟩

end Form

/-! ## Operands -/

namespace Look

theorem holds_next {kinds : List TokenKind} {nodes : List Node} {tokens : List Token} :
    (next kinds).holds nodes tokens = kinds.contains (kindAt tokens 0) := rfl

end Look

namespace Node

/-- A name alone. -/
def name (t : Token) : Node :=
  .around .referenceExpr none t.span.start
    [.around .referenceParameterList none t.span.start [], .leaf .identifier t]

/-- What is read for a token that is an operand alone. -/
def operand (t : Token) : Node := if literals.contains t.kind then .leaf .literal t else name t

end Node

namespace Grammar

/-- The signs that continue an operand. -/
def suffixSigns : List TokenKind :=
  [.dot, .lparen, .lbracket, .colonColon, .increment, .decrement]

end Grammar

namespace Rule.Reads

open Form

variable {frame : Frame} {c : Cursor} {t : Token} {rest : List Token}

theorem primary_operand (hrest : c.rest = t :: rest)
    (ht : t.kind ∈ literals ++ TokenKind.identifiers) :
    Rule.primary.Reads [] c [.operand t] c.advance := by
  refine intro ?_
  have hnext := Cursor.next_eq hrest
  by_cases hliteral : literals.contains t.kind
  · refine .inl ⟨by rw [Look.holds_next, hrest]; exact hliteral, ?_, rfl⟩
    simp only [Node.operand, hliteral, if_true, hnext, List.nil_append]
  · have hname : t.kind ∈ TokenKind.identifiers :=
      (List.mem_append.mp ht).resolve_left fun h => hliteral (by simpa using h)
    have hlooks : ∀ k ∈ TokenKind.identifiers, ∀ kinds ∈ [literals, [.kwThis], [.kwSuper],
        [.kwNew], [.kwSwitch], [.lparen], .kwVoid :: TokenKind.primitives],
        kinds.contains k = false := by decide
    have hlook : ∀ kinds ∈ [literals, [.kwThis], [.kwSuper], [.kwNew], [.kwSwitch], [.lparen],
        .kwVoid :: TokenKind.primitives], (Look.next kinds).holds [] c.rest = false := by
      rw [hrest]
      exact hlooks _ hname
    refine .inr ⟨hlook _ (by simp), .inr ⟨hlook _ (by simp), .inr ⟨hlook _ (by simp),
      .inr ⟨hlook _ (by simp), .inr ⟨hlook _ (by simp), .inr ⟨hlook _ (by simp),
      .inr ⟨hlook _ (by simp), .inl ⟨?_, _, ⟨_, c, ⟨_, ⟨[], ⟨rfl, rfl⟩, rfl⟩, rfl⟩, rfl, rfl⟩, ?_⟩⟩⟩⟩⟩⟩⟩⟩
    · rw [Form.atName, Look.holds_next, hrest]
      exact List.contains_iff_mem.mpr hname
    · simp only [Node.operand, hliteral, hnext]
      rfl

theorem suffixes_idle (hnext : kindAt c.rest 0 ∉ suffixSigns) :
    Rule.suffixes.Reads frame c frame c := by
  have hlook : ∀ kinds, (∀ k ∈ kinds, k ∈ suffixSigns) →
      (Look.next kinds).holds frame c.rest = false := by
    intro kinds hkinds
    rw [Look.holds_next, List.contains_eq_mem, decide_eq_false_iff_not]
    exact fun hmem => hnext (hkinds _ hmem)
  exact intro (.inr ⟨hlook _ (by decide), .inr ⟨hlook _ (by decide), .inr ⟨hlook _ (by decide),
    .inr ⟨hlook _ (by decide), .inr ⟨hlook _ (by decide), rfl, rfl⟩⟩⟩⟩⟩)

/-- A literal or a name that nothing continues is an operand. -/
theorem unary_operand (hrest : c.rest = t :: rest)
    (ht : t.kind ∈ literals ++ TokenKind.identifiers) (hnext : kindAt rest 0 ∉ suffixSigns) :
    Rule.unary.Reads [] c [.operand t] c.advance := by
  have hlooks : ∀ k ∈ literals ++ TokenKind.identifiers, unaryOperators.contains k = false ∧
      [TokenKind.lparen].contains k = false := by decide
  refine intro (.inr ⟨?_, .inr ⟨?_, _, _, primary_operand hrest ht, suffixes_idle ?_⟩⟩)
  · rw [Look.holds_next, hrest]
    exact (hlooks _ ht).1
  · rw [Look.holds, Look.holds_next, hrest, show kindAt (t :: rest) 0 = t.kind from rfl,
      (hlooks _ ht).2, Bool.false_and]
  · rwa [Cursor.rest_advance hrest]

/-- No operator is read in front of another token, or of one that binds looser. -/
theorem operators_idle {least : Nat} (hnext : kindAt c.rest 0 ≠ .kwInstanceof)
    (hlevel : kindAt c.rest 0 ∈ binarySigns → levelOf (kindAt c.rest 0) < least) :
    (Rule.operators least).Reads frame c frame c := by
  obtain ⟨f, ⟨rfl, _⟩ | ⟨hsign, hleast, _⟩, hiff⟩ := operators_cases least hnext
  · exact intro ((hiff _ _ _ _ _ rfl).mpr ⟨rfl, rfl⟩)
  · exact absurd (hlevel hsign) (Nat.not_lt.mpr hleast)

end Rule.Reads

theorem Form.operators_idles (least : Nat) : (Form.rule (.operators least)).Idles := by
  have hkinds : ∀ k ∈ [TokenKind.semicolon, .identifier], k ≠ .kwInstanceof ∧ k ∉ binarySigns := by
    decide
  exact fun _ _ hnext => Rule.Reads.operators_idle (hkinds _ hnext).1
    fun hsign => absurd hsign (hkinds _ hnext).2

end DotCompletion
