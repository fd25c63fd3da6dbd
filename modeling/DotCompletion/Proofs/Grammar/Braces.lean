import DotCompletion.Proofs.Grammar.Retention
import DotCompletion.Proofs.Grammar.Skims

/-!
# Closing braces that were not opened

Between an opening brace and its closing one there may be any tokens but braces, well-formed or
not. Reading them must stop in front of the closing brace, which belongs to what was opened
before. `Form.contained` goes over a form and checks that it takes no token that can be this
brace. Three forms do: a block goes on without its opening brace, the arguments of an annotation
are read up to their closing bracket wherever it is, and the variable of a loop is taken where a
skim has seen one, though the type in front of it may be read differently. Whatever is read, the
closing brace is still ahead or one of the three took it (`Rule.Reads.contained`).
-/

namespace DotCompletion

open Skim Form

/-! ## Nodes that take a brace -/

namespace Node

/-- The brace that the node itself is made of. -/
def brace? (n : Node) : Option TokenKind :=
  (n.token.map Token.kind).filter [TokenKind.lbrace, .rbrace].contains

end Node

namespace Frame

/-- The first brace among the nodes themselves. -/
def firstBrace (frame : Frame) : Option TokenKind := frame.findSome? Node.brace?

variable {frame nodes : Frame}

theorem firstBrace_append : firstBrace (frame ++ nodes) = frame.firstBrace.or nodes.firstBrace :=
  List.findSome?_append

theorem firstBrace_append_none (h : frame.firstBrace = none) (h' : nodes.firstBrace = none) :
    firstBrace (frame ++ nodes) = none := by
  rw [firstBrace_append, h, h', Option.or_none]

theorem firstBrace_around (kind : NodeKind) (error : Option Diagnostic) (p : Position)
    (children : List Node) : firstBrace [.around kind error p children] = none := rfl

theorem firstBrace_leaf (kind : NodeKind) (t : Token) :
    firstBrace [.leaf kind t] = (some t.kind).filter [TokenKind.lbrace, .rbrace].contains := by
  rw [firstBrace, List.findSome?_singleton]
  rfl

end Frame

/-- The kinds of nodes that may take a brace that they did not open. -/
def NodeKind.mayOverrun : List NodeKind := [.block, .annotationUse, .enhancedForStmt]

/-- The node takes a closing brace that it did not open, or is a name made of one. -/
def Node.Overruns (n : Node) : Prop :=
  (n.kind = .identifier ∧ n.brace? = some .rbrace) ∨
    (n.kind ∈ NodeKind.mayOverrun ∧ Frame.firstBrace n.children = some .rbrace)

instance (n : Node) : Decidable n.Overruns := by
  unfold Node.Overruns
  infer_instance

/-- No node below overruns. -/
def Frame.Tidy (frame : Frame) : Prop := ∀ n ∈ frame, n.Every fun m => ¬m.Overruns

namespace Frame.Tidy

variable {frame nodes : Frame}

theorem left (h : Tidy (frame ++ nodes)) : frame.Tidy := fun n hn => h n (List.mem_append_left _ hn)

theorem right (h : Tidy (frame ++ nodes)) : nodes.Tidy := fun n hn =>
  h n (List.mem_append_right _ hn)

theorem of_around {kind : NodeKind} {error : Option Diagnostic} {p : Position}
    (h : Tidy [.around kind error p nodes]) : nodes.Tidy := fun _ hn =>
  (h _ (List.mem_singleton_self _)).child hn

end Frame.Tidy

/-! ## In front of the closing brace -/

/-- The words that the three forms begin with. -/
def TokenKind.overrunWords : List TokenKind := [.kwTry, .kwSynchronized, .kwFor, .atSign]

/-- What is left of a sign that was cut is no brace and no word. -/
theorem Cursor.kind_behindAngle {t : Token} (hcut : Cursor.splittable.contains t.kind = true)
    (ht : t.Solid) : (Cursor.behindAngle t).kind ≠ .lbrace ∧ (Cursor.behindAngle t).kind ≠ .rbrace ∧
      (Cursor.behindAngle t).kind ∉ TokenKind.overrunWords := by
  have htable : ∀ k ∈ Cursor.splittable, ∀ k' ∈ [TokenKind.ofSign ((Bytes.ofString k.name).drop 1)],
      k' ≠ .lbrace ∧ k' ≠ .rbrace ∧ k' ∉ TokenKind.overrunWords := by decide
  refine htable _ (List.contains_iff_mem.mp hcut) _ (List.mem_singleton.mpr ?_)
  rw [← ht.spelled hcut]
  rfl

/-- The tokens of `fence` are still ahead and no brace is in front of them. One of the words above
stands there only if `word` holds. -/
structure Cursor.Inside (fence : List Token) (word : Prop) (c : Cursor) : Prop where
  solid : c.Solid
  closes : kindAt fence 0 = .rbrace
  front : ∃ us, c.rest = us ++ fence ∧
    ∀ t ∈ us, t.kind ≠ .lbrace ∧ t.kind ≠ .rbrace ∧ (t.kind ∈ TokenKind.overrunWords → word)

namespace Cursor.Inside

variable {fence : List Token} {word : Prop} {c c' : Cursor}

/-- The next token is the closing brace or stands in front of it. -/
theorem cases (h : c.Inside fence word) : c.rest = fence ∨ ∃ t us, c.rest = t :: (us ++ fence) ∧
    ∀ u ∈ t :: us, u.kind ≠ .lbrace ∧ u.kind ≠ .rbrace ∧
      (u.kind ∈ TokenKind.overrunWords → word) := by
  obtain ⟨us, hrest, hus⟩ := h.front
  cases us with
  | nil => exact .inl hrest
  | cons t us => exact .inr ⟨t, us, hrest, hus⟩

theorem rest_ne_nil (h : c.Inside fence word) : c.rest ≠ [] := by
  rcases h.cases with hrest | ⟨t, us, hrest, _⟩
  · intro hnil
    have hcloses := h.closes
    rw [← hrest, hnil] at hcloses
    cases hcloses
  · rw [hrest]
    exact List.cons_ne_nil _ _

theorem ne_lbrace (h : c.Inside fence word) : kindAt c.rest 0 ≠ .lbrace := by
  rcases h.cases with hrest | ⟨t, us, hrest, hus⟩
  · rw [hrest, h.closes]
    decide
  · rw [hrest]
    exact (hus t List.mem_cons_self).1

theorem word_of_mem (h : c.Inside fence word)
    (hmem : kindAt c.rest 0 ∈ TokenKind.overrunWords) : word := by
  rcases h.cases with hrest | ⟨t, us, hrest, hus⟩
  · rw [hrest, h.closes] at hmem
    exact absurd hmem (by decide)
  · rw [hrest] at hmem
    exact (hus t List.mem_cons_self).2.2 hmem

theorem rest_eq_of_rbrace (h : c.Inside fence word) (hnext : kindAt c.rest 0 = .rbrace) :
    c.rest = fence := by
  rcases h.cases with hrest | ⟨t, us, hrest, hus⟩
  · exact hrest
  · rw [hrest] at hnext
    exact absurd hnext (hus t List.mem_cons_self).2.1

theorem advance (h : c.Inside fence word) (hnext : kindAt c.rest 0 ≠ .rbrace) :
    c.advance.Inside fence word := by
  refine ⟨(Cursor.onward_advance c).solid h.solid, h.closes, ?_⟩
  rcases h.cases with hrest | ⟨t, us, hrest, hus⟩
  · rw [hrest] at hnext
    exact absurd h.closes hnext
  · refine ⟨us, ?_, fun u hu => hus u (List.mem_cons_of_mem _ hu)⟩
    rw [Cursor.advance_rest, hrest, List.tail_cons]

theorem splitAngle (h : c.Inside fence word) : c.splitAngle.Inside fence word := by
  refine ⟨(Cursor.onward_splitAngle c).solid h.solid, h.closes, ?_⟩
  unfold Cursor.splitAngle
  split
  next => exact h.front
  next t rest hrest =>
      split
      next hcut =>
          rcases h.cases with hfront | ⟨u, us, hfront, hus⟩
          · -- the closing brace is no sign that can be cut
            have hcloses := h.closes
            rw [← hfront, hrest] at hcloses
            rw [show t.kind = .rbrace from hcloses] at hcut
            exact absurd hcut (by decide)
          · obtain ⟨rfl, rfl⟩ := List.cons.inj (hrest.symm.trans hfront)
            have hbehind := Cursor.kind_behindAngle hcut (h.solid t (by simp [hrest]))
            refine ⟨Cursor.angleOf t :: Cursor.behindAngle t :: us, rfl, fun v hv => ?_⟩
            simp only [List.mem_cons] at hv
            rcases hv with rfl | rfl | hv
            · refine ⟨nofun, nofun, fun hword => absurd hword ?_⟩
              simp [angleOf, TokenKind.overrunWords]
            · exact ⟨hbehind.1, hbehind.2.1, fun hword => absurd hword hbehind.2.2⟩
            · exact hus v (List.mem_cons_of_mem _ hv)
      next => exact h.front

/-- Without a token taken the closing brace does not come nearer. -/
theorem ne_rbrace_of_stuck (h : c.Inside fence word) (h' : c'.Inside fence word)
    (honward : Cursor.Onward c c') (htaken : c'.taken = c.taken)
    (hnext : kindAt c.rest 0 ≠ .rbrace) : kindAt c'.rest 0 ≠ .rbrace := by
  intro hbrace
  rcases h.cases with hrest | ⟨t, us, hrest, _⟩
  · rw [hrest] at hnext
    exact hnext h.closes
  · have hleft := honward.stayed_left h.solid htaken
    have hlength := List.length_pos_iff.mpr (h.solid t (by simp [hrest])).text
    simp only [Cursor.left, h'.rest_eq_of_rbrace hbrace, hrest, List.map_cons, List.map_append,
      List.sum_cons, List.sum_append] at hleft
    omega

end Cursor.Inside

/-! ## What is known ahead -/

/-- What is known of the tokens ahead: the kinds of the first and of the second, that the first is
no closing brace, and what a skim over them found. `armed` says that a word was met with which a
form begins that may overrun. -/
structure Outlook where
  first : Option (List TokenKind)
  second : Option (List TokenKind)
  clear : Bool
  skim : Option Ahead
  armed : Bool

namespace Outlook

/-- Nothing is known of the tokens. -/
def blind (armed : Bool) : Outlook := ⟨none, none, false, none, armed⟩

/-- The next token has one of the kinds. -/
def seen (kinds : List TokenKind) : Outlook := ⟨some kinds, none, false, none, false⟩

/-- What is known is true of the tokens. -/
structure Holds (s : Outlook) (word : Prop) (tokens : List Token) : Prop where
  first : ∀ kinds ∈ s.first, kindAt tokens 0 ∈ kinds
  second : ∀ kinds ∈ s.second, kindAt tokens 1 ∈ kinds
  clear : s.clear = true → kindAt tokens 0 ≠ .rbrace
  skim : ∀ question ∈ s.skim, question.holds tokens = true
  armed : s.armed = true → word

/-- What is known holds nowhere in front of the closing brace. -/
def isDead (s : Outlook) : Bool :=
  (s.first.map fun kinds => kinds.all (· == .lbrace)).getD false ||
    (s.second.map List.isEmpty).getD false

/-- The next token is not the closing brace. -/
def isClear (s : Outlook) : Bool :=
  s.clear || (s.first.map fun kinds => !kinds.contains .rbrace).getD false

/-- The next token has one of the kinds, too. -/
def narrow (s : Outlook) (kinds : List TokenKind) : Outlook :=
  { s with first := some ((s.first.map fun known => known.filter kinds.contains).getD kinds) }

/-- What is known behind the next token. -/
def behind (s : Outlook) : Outlook :=
  ⟨s.second, none, false, none,
    s.armed || (s.first.map fun kinds => kinds.all TokenKind.overrunWords.contains).getD false⟩

/-- What is known where no token was taken, though the next one may have been cut. -/
def stuck (s : Outlook) : Outlook := ⟨none, none, s.isClear, none, s.armed⟩

/-- Enough is known for a rule that relies on `e`. -/
def meets (s e : Outlook) : Bool :=
  (e.first.map fun kinds => (s.first.map fun known => known.all kinds.contains).getD false).getD
      true &&
    e.second.isNone && !e.clear && e.skim.isNone && (!e.armed || s.armed)

variable {s e : Outlook} {word : Prop} {fence tokens : List Token} {c : Cursor}

theorem holds_blind {armed : Bool} (h : armed = true → word) (tokens : List Token) :
    (blind armed).Holds word tokens where
  first := nofun
  second := nofun
  clear := nofun
  skim := nofun
  armed := h

namespace Holds

theorem not_dead (h : s.Holds word c.rest) (hin : c.Inside fence word) : s.isDead = false := by
  rw [isDead, Bool.or_eq_false_iff]
  constructor
  · cases hfirst : s.first with
    | none => rfl
    | some kinds =>
        have hmem := h.first kinds hfirst
        refine List.all_eq_false.mpr ⟨_, hmem, ?_⟩
        simpa using hin.ne_lbrace
  · cases hsecond : s.second with
    | none => rfl
    | some kinds =>
        have hmem := h.second kinds hsecond
        cases kinds with
        | nil => cases hmem
        | cons => rfl

theorem ne_rbrace (h : s.Holds word tokens) (hs : s.isClear = true) :
    kindAt tokens 0 ≠ .rbrace := by
  rcases Bool.or_eq_true_iff.mp hs with hclear | hfirst
  · exact h.clear hclear
  · cases hkinds : s.first with
    | none =>
        rw [hkinds] at hfirst
        cases hfirst
    | some kinds =>
        rw [hkinds] at hfirst
        intro hbrace
        have hmem := h.first kinds hkinds
        rw [hbrace] at hmem
        simp [hmem] at hfirst

theorem narrow (h : s.Holds word tokens) {kinds : List TokenKind} (hmem : kindAt tokens 0 ∈ kinds) :
    (s.narrow kinds).Holds word tokens := by
  refine ⟨?_, h.second, h.clear, h.skim, h.armed⟩
  rintro _ ⟨⟩
  cases hfirst : s.first with
  | none => exact hmem
  | some known => exact List.mem_filter.mpr ⟨h.first known hfirst, List.contains_iff_mem.mpr hmem⟩

theorem behind (h : s.Holds word c.rest) (hin : c.Inside fence word) :
    s.behind.Holds word c.advance.rest where
  first := by
    rw [Cursor.advance_rest, kindAt_tail]
    exact h.second
  second := nofun
  clear := nofun
  skim := nofun
  armed := by
    intro harmed
    rcases Bool.or_eq_true_iff.mp harmed with harmed | hfirst
    · exact h.armed harmed
    · cases hkinds : s.first with
      | none =>
          rw [hkinds] at hfirst
          cases hfirst
      | some kinds =>
          rw [hkinds] at hfirst
          have hword := List.all_eq_true.mp hfirst _ (h.first kinds hkinds)
          exact hin.word_of_mem (List.contains_iff_mem.mp hword)

theorem stuck {c' : Cursor} (h : s.Holds word c.rest) (hin : c.Inside fence word)
    (hin' : c'.Inside fence word) (honward : Cursor.Onward c c') (htaken : c'.taken = c.taken) :
    s.stuck.Holds word c'.rest where
  first := nofun
  second := nofun
  clear := fun hclear => hin.ne_rbrace_of_stuck hin' honward htaken (h.ne_rbrace hclear)
  skim := nofun
  armed := h.armed

theorem of_meets (h : s.Holds word tokens) (hs : s.meets e = true) : e.Holds word tokens := by
  simp only [meets, Bool.and_eq_true, Bool.not_eq_true', Bool.or_eq_true] at hs
  obtain ⟨⟨⟨⟨hfirst, hsecond⟩, hclear⟩, hskim⟩, harmed⟩ := hs
  refine ⟨fun kinds hkinds => ?_, fun kinds hkinds => ?_, fun hc => ?_, fun q hq => ?_, fun ha => ?_⟩
  · rw [show e.first = some kinds from hkinds] at hfirst
    cases hknown : s.first with
    | none =>
        rw [hknown] at hfirst
        cases hfirst
    | some known =>
        rw [hknown] at hfirst
        exact List.contains_iff_mem.mp (List.all_eq_true.mp hfirst _ (h.first known hknown))
  · rw [show e.second = some kinds from hkinds] at hsecond
    cases hsecond
  · rw [hc] at hclear
    cases hclear
  · rw [show e.skim = some q from hq] at hskim
    cases hskim
  · rcases harmed with harmed | harmed
    · rw [ha] at harmed
      cases harmed
    · exact h.armed harmed

end Holds

end Outlook

namespace Look

/-- What is known of the tokens ahead if the condition is met. -/
def adds (s : Outlook) : Look → Outlook
  | second kinds => { s with second := some kinds }
  | both a b => b.adds (a.adds s)
  | modifier => s.narrow (.kwDefault :: .kwSealed :: plainModifiers)
  | ahead .lambda => s.narrow (.lparen :: TokenKind.identifiers)
  | ahead question => { s with skim := some question }
  | look => (look.kinds.map s.narrow).getD s

/-- What is known of the tokens ahead if the condition is not met. -/
def lacks (s : Outlook) (look : Look) : Outlook :=
  match look with
  | next kinds =>
    { s with
      first := s.first.map fun known => known.filter fun k => !kinds.contains k
      clear := s.clear || kinds.contains .rbrace }
  | _ => s

variable {look : Look} {s : Outlook} {word : Prop} {frame : Frame} {tokens : List Token}

theorem holds_narrow_kinds (hlook : look.holds frame tokens = true) (hs : s.Holds word tokens) :
    ((look.kinds.map s.narrow).getD s).Holds word tokens := by
  cases hkinds : look.kinds with
  | none => exact hs
  | some kinds => exact hs.narrow (kindAt_mem hlook kinds hkinds)

theorem holds_adds (hlook : look.holds frame tokens = true) (hs : s.Holds word tokens) :
    (look.adds s).Holds word tokens := by
  induction look generalizing s with
  | second kinds =>
      refine ⟨hs.first, ?_, hs.clear, hs.skim, hs.armed⟩
      rintro _ ⟨⟩
      simpa [Look.holds] using hlook
  | both a b iha ihb =>
      simp only [Look.holds, Bool.and_eq_true] at hlook
      exact ihb hlook.2 (iha hlook.1 hs)
  | modifier =>
      refine hs.narrow ?_
      simp only [Look.holds, isModifier, Bool.or_eq_true, Bool.and_eq_true, beq_iff_eq,
        List.contains_iff_mem] at hlook
      rcases hlook with (hplain | ⟨⟨hdefault, _⟩, _⟩) | ⟨hsealed, _⟩
      · exact List.mem_cons_of_mem _ (List.mem_cons_of_mem _ hplain)
      · rw [hdefault]
        exact List.mem_cons_self
      · rw [hsealed]
        exact List.mem_cons_of_mem _ List.mem_cons_self
  | ahead question =>
      have hskim : ({ s with skim := some question } : Outlook).Holds word tokens := by
        refine ⟨hs.first, hs.second, hs.clear, ?_, hs.armed⟩
        rintro _ ⟨⟩
        exact hlook
      cases question with
      | lambda =>
          refine hs.narrow ?_
          simp only [Look.holds, Ahead.holds] at hlook
          split at hlook
          next hname => exact List.mem_cons_of_mem _ (List.contains_iff_mem.mp hname)
          next =>
              simp only [Bool.and_eq_true, beq_iff_eq] at hlook
              rw [hlook.1]
              exact List.mem_cons_self
      | _ => exact hskim
  | next | annotationStart | spelled | typeDecl | operand | isNot | either =>
      exact holds_narrow_kinds hlook hs

theorem holds_lacks (hlook : look.holds frame tokens = false) (hs : s.Holds word tokens) :
    (look.lacks s).Holds word tokens := by
  cases look with
  | next kinds =>
      have hmem : kindAt tokens 0 ∉ kinds := by simpa [Look.holds] using hlook
      refine ⟨?_, hs.second, ?_, hs.skim, hs.armed⟩
      · rintro _ hkinds
        obtain ⟨known, hknown, rfl⟩ := Option.map_eq_some_iff.mp hkinds
        exact List.mem_filter.mpr ⟨hs.first known hknown, by simpa using hmem⟩
      · intro hclear
        rcases Bool.or_eq_true_iff.mp hclear with hclear | hbrace
        · exact hs.clear hclear
        · intro hnext
          rw [hnext] at hmem
          exact hmem (List.contains_iff_mem.mp hbrace)
  | _ => exact hs

end Look

/-! ## Going over a form -/

namespace Rule

/-- What a rule relies on ahead of it. Nothing is known of the rules that are come to behind an
opening brace only. -/
def entry : Rule → Option Outlook
  | annotationUse => some (.seen [.atSign])
  | typeDecl => some (.seen [.kwClass, .kwInterface, .kwEnum, .kwRecord])
  | typeParameters => some (.seen [.less])
  | typeArguments kind => if kind ∈ NodeKind.mayOverrun then none else some (.seen [.less])
  | typeName => some (.seen TokenKind.identifiers)
  | lambda => some (.seen (.lparen :: TokenKind.identifiers))
  | methodRef => some (.seen [.colonColon])
  | creation => some (.seen [.kwNew])
  | switch kind => if kind ∈ NodeKind.mayOverrun then none else some (.seen [.kwSwitch])
  | nested _ | block | catches => some (.blind true)
  | list close _ => if close = .greater ∨ close = .rparen then some (.blind false) else none
  | statements kinds | skipTo kinds => if .rbrace ∈ kinds then some (.blind false) else none
  | compilationUnit | unitItems | enumConstants | members | member | methodRest | statementBlock
  | arrayInit | switchItems | switchCase | caseLabels | caseLabel => none
  | _ => some (.blind false)

/-- The rule may take the closing brace for the node under construction. -/
def overruns : Rule → Bool
  | nested _ => true
  | _ => false

/-- What is known of the tokens behind a rule. -/
def exit (s : Outlook) : Rule → Outlook
  | dims =>
    match s.skim with
    | some .arrayClass => ⟨some [.dot], some [.kwClass], false, none, s.armed⟩
    | some .arrayReference => ⟨some [.colonColon], none, false, none, s.armed⟩
    | _ => .blind s.armed
  | modifiers =>
    match s.skim with
    | some .localClass =>
      ⟨some [.kwClass, .kwInterface, .kwEnum, .kwRecord], none, false, none, s.armed⟩
    | _ => .blind s.armed
  | _ => .blind s.armed

end Rule

namespace Form

/-- What is known of the tokens behind a form that is run inside of braces. Fails where the closing
brace might be taken. It may be taken for the node under construction if that node `overruns`. -/
def contained (overruns : Bool) : Form → Outlook → Option Outlook
  | done, s | missing _, s => some s
  | discard _, _ => none
  | splitAngle, s => some (.blind s.armed)
  | take kind, s =>
    if s.isClear then some s.behind
    else if s.armed && (overruns || kind == .identifier) then some (.blind true)
    else none
  | seq first second, s =>
    if second.steady && (!overruns || second.appends) then
      (first.contained overruns s).bind (second.contained overruns)
    else none
  | choose look yes no, s =>
    if (look.adds s).isDead then no.contained overruns (look.lacks s)
    else (yes.contained overruns (look.adds s)).bind fun a =>
      (no.contained overruns (look.lacks s)).map fun b => .blind (a.armed && b.armed)
  | enclose label body, s => body.contained (NodeKind.mayOverrun.contains label.kind) s
  | within body, s => body.contained false s
  | orElse first second, s =>
    (first.contained false s).bind fun _ =>
      (second.contained overruns s.stuck).map fun _ => .blind s.armed
  | ifStuck first second, s =>
    (first.contained overruns s).bind fun _ =>
      (second.contained overruns s.stuck).map fun _ => .blind s.armed
  | rule r, s =>
    if (r.entry.map s.meets).getD false && (overruns || !r.overruns) then some (r.exit s)
    else none

theorem contained_append (overruns : Bool) (first second : Form) (s : Outlook) :
    (first ++ second).contained overruns s =
      if second.steady && (!overruns || second.appends) then
        (first.contained overruns s).bind (second.contained overruns)
      else none := rfl

theorem isSome_choose {overruns : Bool} {look : Look} {yes no : Form} {s : Outlook}
    (hyes : (yes.contained overruns (look.adds s)).isSome = true)
    (hno : (no.contained overruns (look.lacks s)).isSome = true) :
    ((choose look yes no).contained overruns s).isSome = true := by
  rw [contained]
  split
  next => exact hno
  next =>
      obtain ⟨a, ha⟩ := Option.isSome_iff_exists.mp hyes
      rw [ha, Option.bind_some, Option.isSome_map]
      exact hno

end Form

namespace Grammar

/-- An operator is no closing brace. -/
theorem contained_operator (least level : Nat) {s : Outlook} (hs : s.isClear = true) :
    ((node .binaryExpr (token ++ call (.binary (level + 1))) ++
      .rule (.operators least)).contained false s).isSome = true := by
  simp only [contained_append, node, token, contained, hs]
  rfl

theorem contained_binaryOperators (least : Nat) {levels : List (Nat × List TokenKind)}
    (hlevels : ∀ level ∈ levels, .rbrace ∉ level.2) {s : Outlook} (hs : s.first = none) :
    ((binaryOperators least levels).contained false s).isSome = true := by
  induction levels generalizing s with
  | nil => rfl
  | cons level levels ih =>
      have hrest : ∀ level ∈ levels, .rbrace ∉ level.2 := fun l hl =>
        hlevels l (List.mem_cons_of_mem _ hl)
      unfold binaryOperators
      split
      next =>
          refine isSome_choose (contained_operator least level.1 ?_) (ih hrest ?_)
          · simpa [Look.adds, Look.kinds, Outlook.isClear, Outlook.narrow, hs] using
              .inr (hlevels level List.mem_cons_self)
          · simp [Look.lacks, hs]
      next => exact ih hrest hs

end Grammar

namespace Rule

theorem contained_form (r : Rule) {e : Outlook} (h : r.entry = some e) :
    (r.form.contained r.overruns e).isSome = true := by
  -- the check is computed, but for the table of operators and for kinds that a rule is given
  cases r with
  | operators least =>
      cases h
      refine Form.isSome_choose ?_ (Grammar.contained_binaryOperators least (by decide) rfl)
      split <;> rfl
  | nested n => cases h; cases n <;> rfl
  | classBody b | localVarDecl b | nameRest b => cases h; cases b <;> rfl
  | typeArguments kind | switch kind =>
      obtain ⟨hkind, ⟨⟩⟩ := Option.ite_none_left_eq_some.mp h
      simp only [Form.contained, Rule.form, Form.node]
      rw [show NodeKind.mayOverrun.contains (Label.plain kind).kind = false by simpa [Label.kind]]
      rfl
  | list close item =>
      obtain ⟨rfl | rfl, ⟨⟩⟩ := Option.ite_none_right_eq_some.mp h <;> cases item <;> rfl
  | statements kinds | skipTo kinds =>
      obtain ⟨hmem, ⟨⟩⟩ := Option.ite_none_right_eq_some.mp h
      have hlacks : (Look.next (.eof :: kinds)).lacks (.blind false) =
          ⟨none, none, true, none, false⟩ := by simp [Look.lacks, Outlook.blind, hmem]
      have hlive : ((Look.next (.eof :: kinds)).adds (.blind false)).isDead = false := rfl
      have hrule : (statements kinds).entry = some (.blind false) ∧
          (skipTo kinds).entry = some (.blind false) := ⟨if_pos hmem, if_pos hmem⟩
      simp only [Form.contained, Form.contained_append, Rule.form, hlive, hlacks, hrule]
      rfl
  | compilationUnit | unitItems | enumConstants | members | member | methodRest | statementBlock
  | arrayInit | switchItems | switchCase | caseLabels | caseLabel => cases h
  | _ => cases h; rfl

end Rule

/-! ## What becomes of the closing brace -/

/-- How a form leaves the cursor that was inside of the braces: it is still, and what is known of
the tokens holds; or the closing brace was taken by a node below or for the one under
construction. -/
inductive Kept (fence : List Token) (word : Prop) (overruns : Bool) (s : Outlook) (c : Cursor)
    (frame' : Frame) (c' : Cursor) : Prop
  | inside (cursor : c'.Inside fence word) (braces : frame'.firstBrace = none)
      (holds : s.Holds word c'.rest)
  | overrun (word : word) (moved : c.taken < c'.taken)
      (taken : ¬frame'.Tidy ∨ overruns = true ∧ frame'.firstBrace = some .rbrace)

/-- What a rule does inside of braces. -/
def Contained (fence : List Token) (word : Prop) : Behaviour := fun r frame c frame' c' =>
  r.Reads frame c frame' c' ∧ ∀ e, r.entry = some e → e.Holds word c.rest → c.Inside fence word →
    frame.firstBrace = none → Kept fence word r.overruns (.blind e.armed) c frame' c'

namespace Kept

variable {fence : List Token} {word : Prop} {overruns : Bool} {s s' : Outlook} {c c₁ c' : Cursor}
  {frame frame' : Frame}

theorem weaken (h : Kept fence word overruns s c frame' c')
    (himp : s.Holds word c'.rest → s'.Holds word c'.rest) :
    Kept fence word overruns s' c frame' c' := by
  cases h with
  | inside cursor braces holds => exact .inside cursor braces (himp holds)
  | overrun word moved taken => exact .overrun word moved taken

theorem of_le (h : Kept fence word overruns s c₁ frame' c') (hle : c.taken ≤ c₁.taken) :
    Kept fence word overruns s c frame' c' := by
  cases h with
  | inside cursor braces holds => exact .inside cursor braces holds
  | overrun word moved taken => exact .overrun word (Nat.lt_of_le_of_lt hle moved) taken

/-- What is known of the tokens may be forgotten. -/
theorem blind (h : Kept fence word overruns s c frame' c') {armed : Bool}
    (ha : armed = true → word) : Kept fence word overruns (.blind armed) c frame' c' :=
  h.weaken fun _ => Outlook.holds_blind ha _

/-- Where no token was taken, the closing brace was not. -/
theorem of_stuck (h : Kept fence word overruns s c frame' c') (hstuck : c'.taken = c.taken) :
    c'.Inside fence word ∧ frame'.firstBrace = none := by
  cases h with
  | inside cursor braces _ => exact ⟨cursor, braces⟩
  | overrun _ moved _ => exact absurd hstuck (Nat.ne_of_gt moved)

/-- A token that is no brace is taken inside of the braces. -/
theorem advance (hin : c.Inside fence word) (hbraces : frame.firstBrace = none)
    (hclose : kindAt c.rest 0 ≠ .rbrace) (kind : NodeKind) (hs : s.Holds word c.advance.rest) :
    Kept fence word overruns s c (frame ++ [Node.leaf kind c.next]) c.advance := by
  refine .inside (hin.advance hclose) (Frame.firstBrace_append_none hbraces ?_) hs
  have hopen := hin.ne_lbrace
  rw [Cursor.kindAt_rest hin.rest_ne_nil] at hclose hopen
  simp [Frame.firstBrace_leaf, Option.filter, hclose, hopen]

/-- The closing brace is taken for a name, or by a node that may overrun. -/
theorem close (hin : c.Inside fence word) (hbraces : frame.firstBrace = none)
    (hclose : kindAt c.rest 0 = .rbrace) (hword : word) {kind : NodeKind}
    (hkind : overruns = true ∨ kind = .identifier) :
    Kept fence word overruns s c (frame ++ [Node.leaf kind c.next]) c.advance := by
  have hleaf : Frame.firstBrace [.leaf kind c.next] = some .rbrace := by
    rw [Frame.firstBrace_leaf, ← Cursor.kindAt_rest hin.rest_ne_nil, hclose]
    rfl
  refine .overrun hword ?_ (hkind.symm.imp (fun hkind htidy => ?_) fun hover => ?_)
  · cases hrest : c.rest with
    | nil => exact absurd hrest hin.rest_ne_nil
    | cons t rest => simp [Cursor.advance, hrest]
  · rw [Frame.firstBrace, List.findSome?_singleton] at hleaf
    exact (htidy.right _ (List.mem_singleton_self _)).own (.inl ⟨hkind, hleaf⟩)
  · exact ⟨hover, by rw [Frame.firstBrace_append, hbraces, hleaf]; rfl⟩

theorem take (hin : c.Inside fence word) (hbraces : frame.firstBrace = none)
    (hs : s.Holds word c.rest) {kind : NodeKind}
    (hf : (Form.take kind).contained overruns s = some s') :
    Kept fence word overruns s' c (frame ++ [Node.leaf kind c.next]) c.advance := by
  rw [Form.contained] at hf
  split at hf
  next hclear =>
      cases hf
      exact advance hin hbraces (hs.ne_rbrace hclear) kind (hs.behind hin)
  next =>
      split at hf
      next harmed =>
          cases hf
          simp only [Bool.and_eq_true, Bool.or_eq_true, beq_iff_eq] at harmed
          have hword := hs.armed harmed.1
          by_cases hclose : kindAt c.rest 0 = .rbrace
          · exact close hin hbraces hclose hword harmed.2
          · exact advance hin hbraces hclose kind (Outlook.holds_blind (fun _ => hword) _)
      next => cases hf

/-- The nodes are put under a node that took the closing brace if it may have. -/
theorem enclose {kind : NodeKind}
    (h : Kept fence word (NodeKind.mayOverrun.contains kind) s c frame' c')
    (problem : Option Diagnostic) (p : Position) :
    Kept fence word overruns s c [.around kind problem p frame'] c' := by
  cases h with
  | inside cursor _ holds => exact .inside cursor (Frame.firstBrace_around _ _ _ _) holds
  | overrun word moved taken =>
      refine .overrun word moved (.inl fun htidy => ?_)
      rcases taken with hbelow | ⟨hkind, hbrace⟩
      · exact hbelow htidy.of_around
      · exact (htidy _ (List.mem_singleton_self _)).own
          (.inr ⟨List.contains_iff_mem.mp hkind, hbrace⟩)

/-- The nodes are put behind nodes that hold no brace. -/
theorem within (h : Kept fence word false s c frame' c') (hbraces : frame.firstBrace = none) :
    Kept fence word overruns s c (frame ++ frame') c' := by
  cases h with
  | inside cursor braces holds =>
      exact .inside cursor (Frame.firstBrace_append_none hbraces braces) holds
  | overrun word moved taken =>
      exact .overrun word moved (.inl fun htidy => taken.elim (· htidy.right) (by simp))

end Kept

/-- What a skim in front of a rule found is what is met behind it. -/
theorem Rule.Reads.holds_exit {r : Rule} {frame frame' : Frame} {c c' : Cursor} {s : Outlook}
    {word : Prop} (h : r.Reads frame c frame' c') (hsolid : c.Solid) (hs : s.Holds word c.rest) :
    (r.exit s).Holds word c'.rest := by
  have hblind := Outlook.holds_blind hs.armed c'.rest
  -- the skim and the reading end in front of the same token
  cases r with
  | dims =>
      simp only [exit]
      split
      next hskim =>
          have hclass := hs.skim _ hskim
          simp only [Ahead.holds, ← h.dims_rest, Bool.and_eq_true, beq_iff_eq] at hclass
          refine ⟨?_, ?_, nofun, nofun, hs.armed⟩
          · rintro _ ⟨⟩
            simp [hclass.1]
          · rintro _ ⟨⟩
            simp [hclass.2]
      next hskim =>
          have hreference := hs.skim _ hskim
          simp only [Ahead.holds, ← h.dims_rest, beq_iff_eq] at hreference
          refine ⟨?_, nofun, nofun, nofun, hs.armed⟩
          rintro _ ⟨⟩
          simp [hreference]
      next => exact hblind
  | modifiers =>
      simp only [exit]
      split
      next hskim =>
          have hclass := hs.skim _ hskim
          simp only [Ahead.holds, ← h.modifiers_rest hsolid, isTypeDecl, Bool.and_eq_true,
            Bool.or_eq_true, List.contains_iff_mem, beq_iff_eq, bne_iff_ne, ne_eq] at hclass
          obtain ⟨(hkind | ⟨hat, _⟩) | ⟨hrecord, _⟩, hne⟩ := hclass
          · refine ⟨?_, nofun, nofun, nofun, hs.armed⟩
            rintro _ ⟨⟩
            simp only [List.mem_cons, List.not_mem_nil, or_false] at hkind ⊢
            tauto
          · exact absurd hat hne
          · refine ⟨?_, nofun, nofun, nofun, hs.armed⟩
            rintro _ ⟨⟩
            simp [hrecord]
      next => exact hblind
  | _ => exact hblind

namespace Form.Does

variable {fence : List Token} {word : Prop} {f : Form} {frame frame' : Frame} {c c' : Cursor}

theorem onward_of_contained (h : f.Does (Contained fence word) frame c frame' c') :
    Cursor.Onward c c' := h.onward fun _ _ _ _ _ h => h.1.onward

/-- What was taken before stays taken. -/
theorem overrun_of_contained (h : f.Does (Contained fence word) frame c frame' c')
    {overruns : Bool} (hsteady : f.steady = true) (happends : overruns = true → f.appends = true)
    (htaken : ¬frame.Tidy ∨ overruns = true ∧ frame.firstBrace = some .rbrace) :
    ¬frame'.Tidy ∨ overruns = true ∧ frame'.firstBrace = some .rbrace := by
  rcases htaken with htidy | ⟨hover, hbrace⟩
  · refine .inl fun h' => htidy ?_
    exact (h.mono fun r _ _ _ _ h => h.1.every_of_steady).every_of_steady hsteady h'
  · obtain ⟨more, rfl⟩ :=
      (h.mono fun r _ _ _ _ h => h.1.exists_append).exists_append (happends hover)
    rw [Frame.firstBrace_append, hbrace]
    exact .inr ⟨hover, rfl⟩

theorem contained (h : f.Does (Contained fence word) frame c frame' c') {overruns : Bool}
    {s s' : Outlook} (hf : f.contained overruns s = some s') (hs : s.Holds word c.rest)
    (hin : c.Inside fence word) (hbraces : frame.firstBrace = none) :
    Kept fence word overruns s' c frame' c' := by
  -- each case follows the check of its form; a brace that was taken stays taken
  induction f generalizing frame c frame' c' overruns s s' with
  | done =>
      obtain ⟨rfl, rfl⟩ := h
      cases hf
      exact .inside hin hbraces hs
  | missing problem =>
      obtain ⟨rfl, rfl⟩ := h
      cases hf
      exact .inside hin (Frame.firstBrace_append_none hbraces rfl) hs
  | discard kind => cases hf
  | splitAngle =>
      obtain ⟨rfl, rfl⟩ := h
      cases hf
      exact .inside hin.splitAngle hbraces (Outlook.holds_blind hs.armed _)
  | take kind =>
      obtain ⟨rfl, rfl⟩ := h
      exact .take hin hbraces hs hf
  | seq first second ihfirst ihsecond =>
      obtain ⟨middle, between, hfirst, hsecond⟩ := h
      rw [Form.contained] at hf
      split at hf
      next hstays =>
          simp only [Bool.and_eq_true, Bool.or_eq_true, Bool.not_eq_true'] at hstays
          obtain ⟨s₁, hs₁, hs'⟩ := Option.bind_eq_some_iff.mp hf
          cases ihfirst hfirst hs₁ hs hin hbraces with
          | inside hbetween hmiddle hholds =>
              exact (ihsecond hsecond hs' hholds hbetween hmiddle).of_le
                hfirst.onward_of_contained.taken_le
          | overrun hword hlt htaken =>
              have honward := hsecond.onward_of_contained
              refine .overrun hword (Nat.lt_of_lt_of_le hlt honward.taken_le) ?_
              refine hsecond.overrun_of_contained hstays.1 (fun hover => ?_) htaken
              exact hstays.2.resolve_left (by simp [hover])
      next => cases hf
  | choose look yes no ihyes ihno =>
      rw [Form.contained] at hf
      split at hf
      next hdead =>
          rcases h with ⟨hlook, _⟩ | ⟨hlook, hno⟩
          · rw [(Look.holds_adds hlook hs).not_dead hin] at hdead
            cases hdead
          · exact ihno hno hf (Look.holds_lacks hlook hs) hin hbraces
      next =>
          obtain ⟨a, ha, hmore⟩ := Option.bind_eq_some_iff.mp hf
          obtain ⟨b, hb, rfl⟩ := Option.map_eq_some_iff.mp hmore
          rcases h with ⟨hlook, hyes⟩ | ⟨hlook, hno⟩
          · refine (ihyes hyes ha (Look.holds_adds hlook hs) hin hbraces).weaken fun hholds =>
              Outlook.holds_blind (fun harmed => hholds.armed ?_) _
            exact (Bool.and_eq_true_iff.mp harmed).1
          · refine (ihno hno hb (Look.holds_lacks hlook hs) hin hbraces).weaken fun hholds =>
              Outlook.holds_blind (fun harmed => hholds.armed ?_) _
            exact (Bool.and_eq_true_iff.mp harmed).2
  | enclose label body ih =>
      obtain ⟨children, hbody, rfl⟩ := h
      exact (ih hbody hf hs hin hbraces).enclose _ _
  | within body ih =>
      obtain ⟨nodes, hbody, rfl⟩ := h
      exact (ih hbody hf hs hin rfl).within hbraces
  | orElse first second ihfirst ihsecond =>
      obtain ⟨nodes, between, hfirst, hrest⟩ := h
      obtain ⟨_, hs₁, hmore⟩ := Option.bind_eq_some_iff.mp hf
      obtain ⟨_, hs₂, rfl⟩ := Option.map_eq_some_iff.mp hmore
      have hkept := ihfirst hfirst hs₁ hs hin rfl
      rcases hrest with ⟨hstuck, hsecond⟩ | ⟨_, rfl, rfl⟩
      · obtain ⟨hbetween, _⟩ := hkept.of_stuck hstuck
        have hholds := hs.stuck hin hbetween hfirst.onward_of_contained hstuck
        have hkept' := ihsecond hsecond hs₂ hholds hbetween hbraces
        exact (hkept'.of_le (Nat.le_of_eq hstuck.symm)).blind hs.armed
      · exact (hkept.within hbraces).blind hs.armed
  | ifStuck first second ihfirst ihsecond =>
      obtain ⟨middle, between, hfirst, hrest⟩ := h
      obtain ⟨_, hs₁, hmore⟩ := Option.bind_eq_some_iff.mp hf
      obtain ⟨_, hs₂, rfl⟩ := Option.map_eq_some_iff.mp hmore
      have hkept := ihfirst hfirst hs₁ hs hin hbraces
      rcases hrest with ⟨hstuck, hsecond⟩ | ⟨_, rfl, rfl⟩
      · obtain ⟨hbetween, hmiddle⟩ := hkept.of_stuck hstuck
        have hholds := hs.stuck hin hbetween hfirst.onward_of_contained hstuck
        have hkept' := ihsecond hsecond hs₂ hholds hbetween hmiddle
        exact (hkept'.of_le (Nat.le_of_eq hstuck.symm)).blind hs.armed
      · exact hkept.blind hs.armed
  | rule r =>
      rw [Form.contained] at hf
      split at hf
      next hr =>
          cases hf
          simp only [Bool.and_eq_true, Bool.or_eq_true, Bool.not_eq_true'] at hr
          cases hentry : r.entry with
          | none =>
              rw [hentry] at hr
              cases hr.1
          | some e =>
              rw [hentry] at hr
              cases h.2 e hentry (hs.of_meets hr.1) hin hbraces with
              | inside hc' hframe' _ => exact .inside hc' hframe' (h.1.holds_exit hin.solid hs)
              | overrun hword hlt htaken =>
                  refine .overrun hword hlt (htaken.imp_right fun hover => ⟨?_, hover.2⟩)
                  exact hr.2.resolve_right (by simp [hover.1])
      next => cases hf

end Form.Does

/-- Inside of braces every rule stops in front of the closing one, or it was taken by a node that
did not open it. -/
theorem Rule.Reads.contained {fence : List Token} {word : Prop} {r : Rule} {frame frame' : Frame}
    {c c' : Cursor} (h : r.Reads frame c frame' c') :
    Contained fence word r frame c frame' c' := by
  refine ⟨h, h.induct_reads (fun r frame c frame' c' => ∀ e, r.entry = some e →
    e.Holds word c.rest → c.Inside fence word → frame.firstBrace = none →
      Kept fence word r.overruns (.blind e.armed) c frame' c') ?_⟩
  intro r frame c frame' c' hform e he hholds hin hbraces
  obtain ⟨s', hs'⟩ := Option.isSome_iff_exists.mp (r.contained_form he)
  exact (Form.Does.contained hform hs' hholds hin hbraces).blind hholds.armed

end DotCompletion
