import DotCompletion.Proofs.Grammar.Layout
import DotCompletion.Proofs.Grammar.Retention

/-!
# The leaves that are names

A form takes a name only where it has seen that the next token can be one, with
one exception: the variable of a loop and the variable behind `case` are taken
without looking, because a skim over the tokens ahead has found a type and a name
there. Skim and grammar can disagree about where the type ends. The leaf is then
made of whatever token comes next, and the token in front of it is a token of the
same node. Such a variable is a child of the loop or of the `case`.
-/

namespace DotCompletion

open Skim (kindAt)

/-- Behind the first token only the second is left out of the source. -/
structure Token.Follows (source : Bytes) (v t : Token) : Prop where
  le : v.hi ≤ t.lo
  last : ∀ u ∈ Token.significant source, Cursor.splittable.contains u.kind = false →
    u.hi ≤ t.lo → u.hi ≤ v.hi

/-- The names among the nodes are made of tokens, and of tokens that can be names. -/
def Frame.Named (frame : Frame) : Prop :=
  ∀ n ∈ frame, n.kind = .identifier → ∃ t, n.token = some t ∧ t.kind.isIdentifier = true

/-- The names among the children are made of tokens that can be names, but for the
last, which follows a token of the node. -/
def Node.NamesFit (source : Bytes) (n : Node) : Prop :=
  Frame.Named n.children ∨
    ∃ front name, n.children = front ++ [name] ∧ Frame.Named front ∧
      ∀ t ∈ name.token, ∃ v ∈ Node.yieldAll front, Token.Follows source v t

/-- A node of the kind takes a variable without looking: a loop over a collection, or a `case`. -/
def NodeKind.takesVariable (kind : NodeKind) : Bool :=
  kind = .enhancedForStmt || kind = .switchCase

/-- The names among the children of a child are made of tokens that can be names, unless the child
can be a variable that was taken without looking. -/
def Node.NamesBelow (n : Node) : Prop :=
  n.kind.takesVariable = true ∨ ∀ m ∈ n.children, Frame.Named m.children

/-! ## What is seen ahead -/

/-- What is known of the tokens ahead: the kinds of the first and of the second,
and whether a variable with its type was found. -/
structure Sight where
  next : Option (List TokenKind)
  second : Option (List TokenKind)
  bound : Bool

namespace Sight

def blind : Sight := ⟨none, none, false⟩

/-- The next token can be a name. -/
def name : Sight := ⟨some TokenKind.identifiers, none, false⟩

def seesName (s : Sight) : Bool :=
  (s.next.map fun kinds => kinds.all TokenKind.isIdentifier).getD false

structure Holds (s : Sight) (tokens : List Token) : Prop where
  next : ∀ kinds ∈ s.next, kindAt tokens 0 ∈ kinds
  second : ∀ kinds ∈ s.second, kindAt tokens 1 ∈ kinds
  bound : s.bound = true →
    Ahead.holds tokens .enhancedFor = true ∨ Ahead.holds tokens .typePattern = true

theorem holds_blind (tokens : List Token) : blind.Holds tokens where
  next := by rintro _ ⟨⟩
  second := by rintro _ ⟨⟩
  bound := fun h => nomatch h

theorem Holds.isIdentifier {s : Sight} {tokens : List Token} (h : s.Holds tokens)
    (hsees : s.seesName = true) : (kindAt tokens 0).isIdentifier = true := by
  cases hnext : s.next with
  | none =>
      rw [seesName, hnext] at hsees
      cases hsees
  | some kinds =>
      rw [seesName, hnext] at hsees
      exact List.all_eq_true.mp hsees _ (h.next kinds hnext)

theorem Holds.name {s : Sight} {tokens : List Token} (h : s.Holds tokens)
    (hsees : s.seesName = true) : Sight.name.Holds tokens where
  next := by
    rintro _ ⟨⟩
    simpa [TokenKind.isIdentifier] using h.isIdentifier hsees
  second := by rintro _ ⟨⟩
  bound := fun h => nomatch h

/-- What is known behind the next token. -/
def behind (s : Sight) : Sight := ⟨s.second, none, false⟩

theorem Holds.behind {s : Sight} {c : Cursor} (h : s.Holds c.rest) :
    s.behind.Holds c.advance.rest where
  next := by
    intro kinds hkinds
    have hsecond := h.second kinds hkinds
    cases hrest : c.rest with
    | nil =>
        have hsame : c.advance = c := by rw [Cursor.advance, hrest]
        rw [hsame, hrest]
        rw [hrest] at hsecond
        exact hsecond
    | cons t rest => simpa [Cursor.advance, kindAt, hrest] using hsecond
  second := by rintro _ ⟨⟩
  bound := fun h => nomatch h

end Sight

/-- What is known of the tokens ahead if the condition is met. -/
def Look.sight (s : Sight) : Look → Sight
  | next kinds => { s with next := some kinds }
  | second kinds => { s with second := some kinds }
  | both a b => b.sight (a.sight s)
  | ahead .enhancedFor | ahead .typePattern => { s with bound := true }
  | _ => s

theorem Look.holds_sight {look : Look} {s : Sight} {frame : Frame} {tokens : List Token}
    (hlook : look.holds frame tokens = true) (hs : s.Holds tokens) :
    (look.sight s).Holds tokens := by
  induction look generalizing s with
  | next kinds =>
      refine ⟨?_, hs.second, hs.bound⟩
      rintro _ ⟨⟩
      simpa [Look.holds] using hlook
  | second kinds =>
      refine ⟨hs.next, ?_, hs.bound⟩
      rintro _ ⟨⟩
      simpa [Look.holds] using hlook
  | both a b iha ihb =>
      simp only [Look.holds, Bool.and_eq_true] at hlook
      exact ihb hlook.2 (iha hlook.1 hs)
  | ahead question =>
      cases question with
      | enhancedFor => exact ⟨hs.next, hs.second, fun _ => .inl hlook⟩
      | typePattern => exact ⟨hs.next, hs.second, fun _ => .inr hlook⟩
      | _ => exact hs
  | spelled | modifier | annotationStart | typeDecl | operand | either | isNot => exact hs

/-! ## Names through forms -/

/-- What a rule relies on ahead of it. -/
def Rule.sight : Rule → Sight
  | typeName => .name
  | _ => .blind

namespace Form

/-- Modifiers, a type, and a name that is taken without looking. -/
def isBound : Form → Bool
  | seq (seq (rule .modifiers) (within (rule .typeUse))) (take .identifier) => true
  | _ => false

theorem isBound_iff {f : Form} :
    f.isBound = true ↔ f = .rule .modifiers ++ call .typeUse ++ name := by
  constructor
  · intro h
    unfold isBound at h
    split at h
    next => rfl
    next => cases h
  · rintro rfl
    rfl

/-- What is known of the tokens behind a form. Fails where a name might be taken
that was not seen before. -/
def names : Form → Sight → Option Sight
  | done, s | missing _, s | discard _, s => some s
  | splitAngle, _ => some .blind
  | take kind, s => if kind = .identifier ∧ s.seesName = false then none else some s.behind
  | seq first second, s => (first.names s).bind second.names
  | choose look yes no, s =>
    (yes.names (look.sight s)).bind fun _ => (no.names s).map fun _ => .blind
  | enclose label body, s =>
    if body.isBound = true ∧ s.bound = true ∧ label = .plain .parameter then some .blind
    else body.names s
  | within body, s => body.names s
  | orElse first second, s | ifStuck first second, s =>
    (first.names s).bind fun _ => (second.names .blind).map fun _ => .blind
  | rule r, s => if r.sight.next = none ∨ s.seesName = true then some .blind else none

end Form

/-- Whether the frame behind a rule may hold a variable that was taken without looking, by whether
the frame in front of it may. Only the labels of a `case`, and statements behind them, are read into
a frame that may. -/
def Rule.taken : Rule → Bool → Option Bool
  | caseLabels, _ => some true
  | statements _, held => some held
  | _, true => none
  | caseLabel, false => some true
  | typeArguments kind, false | switch kind, false =>
    if kind = .identifier then none else some false
  | _, false => some false

/-- Whether the frame behind a form may hold a variable that was taken without looking. Fails where
it might become a child of a node that takes none, and where a name might be made of other nodes. -/
def Form.taken : Form → Bool → Option Bool
  | done, held | take _, held | missing _, held | discard _, held | splitAngle, held => some held
  | seq first second, held => (first.taken held).bind second.taken
  | choose _ yes no, held => (yes.taken held).bind fun y => (no.taken held).map (y || ·)
  | enclose label body, held =>
    (body.taken held).bind fun inner =>
      if label.kind = .identifier ∨ inner = true ∧ label.kind.takesVariable = false then none
      else some body.isBound
  | within body, held => (body.taken false).map (held || ·)
  | orElse first second, held =>
    (first.taken false).bind fun f => (second.taken held).map (held || f || ·)
  | ifStuck first second, held => (first.taken held).bind fun f => (second.taken f).map (f || ·)
  | rule r, held => r.taken held

/-- The names of the frame can be names, each node of it and below it fits, and the names below its
nodes can be names, unless it may hold a variable that was taken without looking. -/
structure Frame.AllNamed (fits : Node → Prop) (held : Bool) (frame : Frame) : Prop where
  named : frame.Named
  below : held = false → ∀ n ∈ frame, Frame.Named n.children
  every : Node.EveryIn (fun n => fits n ∧ n.NamesBelow) frame

namespace Frame.AllNamed

variable {fits : Node → Prop} {held held' : Bool} {frame nodes : Frame}

theorem nil (fits : Node → Prop) (held : Bool) : AllNamed fits held [] :=
  ⟨(by rintro _ ⟨⟩), (by rintro - _ ⟨⟩), by rintro _ ⟨⟩⟩

theorem mono (h : frame.AllNamed fits held) (hle : held = true → held' = true) :
    frame.AllNamed fits held' where
  named := h.named
  below := fun hnone => h.below (Bool.eq_false_iff.mpr fun hheld => by
    rw [hle hheld] at hnone
    cases hnone)
  every := h.every

theorem append (h : frame.AllNamed fits held) (h' : nodes.AllNamed fits held') :
    AllNamed fits (held || held') (frame ++ nodes) where
  named n hn := (List.mem_append.mp hn).elim (h.named n) (h'.named n)
  below hnone n hn := by
    obtain ⟨hheld, hheld'⟩ := Bool.or_eq_false_iff.mp hnone
    exact (List.mem_append.mp hn).elim (h.below hheld n) (h'.below hheld' n)
  every := h.every.append h'.every

theorem filter (h : frame.AllNamed fits held) (keep : Node → Bool) :
    AllNamed fits held (frame.filter keep) where
  named n hn := h.named n (List.mem_of_mem_filter hn)
  below hnone n hn := h.below hnone n (List.mem_of_mem_filter hn)
  every := h.every.filter keep

/-- A node with no children. -/
theorem single {n : Node} (hn : n.children = []) (hfit : fits n)
    (h : n.kind = .identifier → ∃ t, n.token = some t ∧ t.kind.isIdentifier = true) :
    AllNamed fits false [n] where
  named m hm := by
    rw [List.mem_singleton.mp hm]
    exact h
  below _ m hm := by
    rw [List.mem_singleton.mp hm, hn]
    rintro _ ⟨⟩
  every := by
    have hnone : ∀ m : Node, m ∉ n.children := by simp [hn]
    exact .single (.intro ⟨hfit, .inr fun m hm => absurd hm (hnone m)⟩
      fun m hm => absurd hm (hnone m))

theorem leaf {kind : NodeKind} {t : Token} (hfit : fits (.leaf kind t))
    (h : kind = .identifier → t.kind.isIdentifier = true) : AllNamed fits false [.leaf kind t] :=
  single rfl hfit fun hkind => ⟨t, rfl, h hkind⟩

theorem missing {p : Position} {d : Diagnostic} (hfit : fits (.missing p d)) :
    AllNamed fits false [.missing p d] :=
  single rfl hfit nofun

/-- A node around others, which takes variables if there may be one among them. -/
theorem around {kind : NodeKind} {error : Option Diagnostic} {p : Position}
    (h : nodes.AllNamed fits held) (hkind : kind ≠ .identifier)
    (hfit : fits (.around kind error p nodes)) (htakes : held = true → kind.takesVariable = true) :
    AllNamed fits false [.around kind error p nodes] where
  named m hm hname := by
    rw [List.mem_singleton.mp hm] at hname
    exact absurd hname hkind
  below _ m hm := by
    rw [List.mem_singleton.mp hm]
    exact h.named
  every := by
    have hbelow : Node.NamesBelow (.around kind error p nodes) := by
      by_cases hheld : held = true
      · exact .inl (htakes hheld)
      · exact .inr (h.below (Bool.eq_false_iff.mpr hheld))
    exact .single (.intro ⟨hfit, hbelow⟩ h.every)

/-- A variable that ends with whatever token comes next. -/
theorem bound {p : Position} {t : Token} (hleaf : fits (.leaf .identifier t))
    (hfit : fits (.around .parameter none p (frame ++ [.leaf .identifier t])))
    (h : frame.AllNamed fits false) :
    AllNamed fits true [.around .parameter none p (frame ++ [.leaf .identifier t])] where
  named m hm hname := by
    rw [List.mem_singleton.mp hm] at hname
    cases hname
  below := nofun
  every := by
    have hnil : Frame.Named (Node.leaf .identifier t).children := by rintro _ ⟨⟩
    have hbelow : ∀ n ∈ frame ++ [.leaf .identifier t], Frame.Named n.children := by
      intro n hn
      rcases List.mem_append.mp hn with hn | hn
      · exact h.below rfl n hn
      · rw [List.mem_singleton.mp hn]
        exact hnil
    have hlast : (Node.leaf .identifier t).Every fun n => fits n ∧ n.NamesBelow :=
      .leaf ⟨hleaf, .inr (by rintro _ ⟨⟩)⟩
    exact .single (.intro ⟨hfit, .inr hbelow⟩ (h.every.append (.single hlast)))

end Frame.AllNamed

/-! ## The variable that is taken without looking -/

/-- A skim finds a type only where modifiers or a type are taken. -/
theorem Ahead.skim_cases {tokens rest : List Token} {brackets : Bool}
    (h : Skim.type? brackets (Skim.modifiers Skim.anyModifier .between tokens) = some rest) :
    (Look.either .annotationStart .modifier).holds [] tokens = true ∨
      kindAt tokens 0 ∈ Rule.starters .typeUse := by
  cases tokens with
  | nil => cases h
  | cons t tail =>
      rw [Skim.modifiers, Skim.ModifierPlace.next?] at h
      by_cases hmodifier : Skim.anyModifier t tail = none
      · right
        rw [hmodifier] at h
        simp only [Skim.type?] at h
        split at h
        next hprimitive =>
            simp only [TokenKind.isPrimitive, List.contains_iff_mem] at hprimitive
            simp [Rule.starters, hprimitive]
        next =>
            rw [Skim.typeName?, Skim.TypePlace.step] at h
            split at h
            next hstep =>
                split at hstep
                next hidentifier =>
                    simp only [TokenKind.isIdentifier, List.contains_iff_mem] at hidentifier
                    simp [Rule.starters, kindAt, hidentifier]
                next => cases hstep
            next hstep => split at hstep <;> cases hstep
            next => cases h
      · left
        simp only [Skim.anyModifier] at hmodifier
        simp only [Look.holds, Bool.or_eq_true]
        split at hmodifier
        next hannotation => exact .inl hannotation
        next =>
            split at hmodifier
            next hword => exact .inr hword
            next => exact absurd rfl hmodifier

theorem Ahead.bound_cases {tokens : List Token}
    (h : Ahead.holds tokens .enhancedFor = true ∨ Ahead.holds tokens .typePattern = true) :
    (Look.either .annotationStart .modifier).holds [] tokens = true ∨
      kindAt tokens 0 ∈ Rule.starters .typeUse := by
  simp only [Ahead.holds] at h
  rcases h with h | h
  · split at h
    next hskim => exact skim_cases hskim
    next => cases h
  · split at h
    next hskim => exact skim_cases hskim
    next => cases h

/-- Where modifiers are seen they are taken. -/
theorem Rule.Reads.modifiers_moves {frame frame' : Frame} {c c' : Cursor}
    (h : Rule.modifiers.Reads frame c frame' c') (hsolid : c.Solid) (hrest : c.rest ≠ [])
    (hlook : (Look.either .annotationStart .modifier).holds [] c.rest = true) :
    c.taken < c'.taken := by
  rcases h.elim with ⟨_, nodes, ⟨children, hrule, _⟩, _⟩ | ⟨hnone, _⟩
  · rcases hrule.elim with ⟨_, middle, between, ⟨_, hannotation, _⟩, hmore⟩ |
        ⟨hnot, ⟨_, middle, between, htoken, hmore⟩ | ⟨hnot', _⟩⟩
    · have hmoved := (Rule.Reads.moves _ _ _ _ _ hannotation).2 hsolid hrest (.inl rfl)
      have hle := (Rule.Reads.onward hmore).taken_le
      omega
    · obtain ⟨_, rfl⟩ := htoken
      have hmoved : c.taken < c.advance.taken := by
        cases hc : c.rest with
        | nil => exact absurd hc hrest
        | cons t rest => simp [Cursor.advance, hc]
      have hle := (Rule.Reads.onward hmore).taken_le
      omega
    · simp only [Look.holds, Bool.or_eq_true] at hlook hnot hnot'
      simp [hnot, hnot'] at hlook
  · exact absurd (hnone.symm.trans hlook) (by decide)

/-- Where a variable was found, its modifiers and its type take a token. -/
theorem Rule.Reads.bound_moves {frame middle nodes : Frame} {c between c' : Cursor}
    (hmodifiers : Rule.modifiers.Reads frame c middle between)
    (htype : Rule.typeUse.Reads [] between nodes c') (hsolid : c.Solid)
    (hbound : Ahead.holds c.rest .enhancedFor = true ∨ Ahead.holds c.rest .typePattern = true) :
    c'.taken ≠ c.taken := by
  have honward := hmodifiers.onward
  have htypeLe := htype.onward.taken_le
  have hrest : c.rest ≠ [] := by
    intro hrest
    rw [hrest] at hbound
    exact absurd hbound (by decide)
  rcases Ahead.bound_cases hbound with hlook | hstarts
  · have hmoved := hmodifiers.modifiers_moves hsolid hrest hlook
    omega
  · by_cases hstayed : between.taken = c.taken
    · -- without modifiers the type stands at the cursor
      rw [Cursor.kindAt_rest hrest] at hstarts
      have hwhole : ∀ k ∈ Rule.starters .typeUse, Cursor.splittable.contains k = false := by decide
      have hsame := (honward.stayed hstayed).2 (hwhole _ hstarts)
      have hmoved := (Rule.Reads.moves _ _ _ _ _ htype).2 (honward.solid hsolid)
        (by rw [hsame]; exact hrest) (.inr (by rw [honward.next_eq hsame]; exact hstarts))
      omega
    · have hle := honward.taken_le
      omega

/-- Nothing lies between the last token taken and the next one. -/
theorem Cursor.Placed.follows {source : Bytes} {c : Cursor} (h : c.Placed source) {v : Token}
    (hlast : c.last = some v.span.stop) : Token.Follows source v c.next where
  le := by
    have hle := h.behind_le
    rwa [Cursor.behind, hlast] at hle
  last := by
    intro u hu hwhole hle
    rcases h.ahead u hu hwhole with hmem | ⟨p, hp, hp'⟩
    · -- a token ahead does not end in front of the next one
      have hlt := (Token.Part.whole hu).lo_lt_hi
      cases hrest : c.rest with
      | nil =>
          rw [hrest] at hmem
          cases hmem
      | cons t rest =>
          have hnext : c.next = t := by rw [Cursor.next, hrest]; rfl
          rw [hnext] at hle
          have hordered := hrest ▸ h.ordered
          rw [hrest] at hmem
          rcases List.mem_cons.mp hmem with rfl | hmem
          · omega
          · have hbefore := (List.pairwise_cons.mp hordered).1 u hmem
            have hpart := (h.parts t (by simp [hrest])).lo_lt_hi
            omega
    · rw [hlast] at hp
      cases hp
      exact hp'

/-- What may hold of a node whose names are as the grammar takes them: it holds where all names can
be names, and of a variable that is taken without looking. -/
structure FitsNames (source : Bytes) (fits : Node → Prop) : Prop where
  named : ∀ n : Node, Frame.Named n.children → fits n
  bound : ∀ {edge start : Nat} {frame middle nodes : Frame} {c between c' : Cursor} (p : Position),
    frame.Rests source edge start c → Rule.modifiers.Reads frame c middle between →
      Rule.typeUse.Reads [] between nodes c' →
        Ahead.holds c.rest .enhancedFor = true ∨ Ahead.holds c.rest .typePattern = true →
          Frame.Named (middle ++ nodes) →
            fits (.around .parameter none p (middle ++ nodes ++ [.leaf .identifier c'.next]))

namespace FitsNames

variable {source : Bytes} {fits : Node → Prop}

theorem leaf (h : FitsNames source fits) (kind : NodeKind) (t : Token) : fits (.leaf kind t) :=
  h.named _ (by rintro _ ⟨⟩)

theorem missing (h : FitsNames source fits) (p : Position) (d : Diagnostic) :
    fits (.missing p d) := h.named _ (by rintro _ ⟨⟩)

end FitsNames

/-! ## Names through rules -/

/-- The rule keeps the names fitting, where it sees what it relies on. -/
def KeepsNames (source : Bytes) (fits : Node → Prop) : Behaviour := fun r frame c frame' c' =>
  r.Reads frame c frame' c' ∧
    ∀ edge start held held', frame.Rests source edge start c → r.sight.Holds c.rest →
      r.taken held = some held' → frame.AllNamed fits held → frame'.AllNamed fits held'

namespace Form.Does

variable {source : Bytes} {fits : Node → Prop} {edge start : Nat} {f : Form} {frame frame' : Frame}
  {c c' : Cursor}

theorem rests_of_keepsNames (h : f.Does (KeepsNames source fits) frame c frame' c')
    (hrests : frame.Rests source edge start c) : frame'.Rests source edge start c' :=
  (staysLaid (h.mono fun _ _ _ _ _ h => h.1.staysLaid) hrests).1

theorem bound_fits (hfits : FitsNames source fits) {p : Position}
    (h : (Form.rule .modifiers ++ call .typeUse ++ name).Does (KeepsNames source fits)
      frame c frame' c')
    (hbound : Ahead.holds c.rest .enhancedFor = true ∨ Ahead.holds c.rest .typePattern = true)
    (hrests : frame.Rests source edge start c) (hnamed : frame.AllNamed fits false) :
    Frame.AllNamed fits true [.around .parameter none p frame'] := by
  obtain ⟨front, behind, ⟨middle, between, hmodifiers, nodes, htype, rfl⟩, rfl, rfl⟩ := h
  have hmiddle := (hmodifiers.1.staysLaid _ _ hrests).1
  have hfront : Frame.AllNamed fits false (middle ++ nodes) :=
    (hmodifiers.2 _ _ _ false hrests (Sight.holds_blind _) rfl hnamed).append
      (htype.2 _ _ _ false (.nil hmiddle.cursor) (Sight.holds_blind _) rfl (.nil fits false))
  exact .bound (hfits.leaf _ _) (hfits.bound p hrests hmodifiers.1 htype.1 hbound hfront.named)
    hfront

theorem keepsNames (hfits : FitsNames source fits)
    (h : f.Does (KeepsNames source fits) frame c frame' c') {s s' : Sight} {held held' : Bool}
    (hf : f.names s = some s') (htaken : f.taken held = some held') (hs : s.Holds c.rest)
    (hrests : frame.Rests source edge start c) (hnamed : frame.AllNamed fits held) :
    frame'.AllNamed fits held' ∧ s'.Holds c'.rest := by
  induction f generalizing frame c frame' c' s s' edge start held held' with
  | done =>
      obtain ⟨rfl, rfl⟩ := h
      cases hf
      cases htaken
      exact ⟨hnamed, hs⟩
  | missing problem =>
      obtain ⟨rfl, rfl⟩ := h
      cases hf
      cases htaken
      exact ⟨(hnamed.append (.missing (hfits.missing _ _))).mono (by simp), hs⟩
  | discard kind =>
      obtain ⟨rfl, rfl⟩ := h
      cases hf
      cases htaken
      exact ⟨hnamed.filter _, hs⟩
  | splitAngle =>
      obtain ⟨rfl, rfl⟩ := h
      cases hf
      cases htaken
      exact ⟨hnamed, Sight.holds_blind _⟩
  | take kind =>
      obtain ⟨rfl, rfl⟩ := h
      cases htaken
      rw [names] at hf
      split at hf
      next => cases hf
      next hsees =>
          cases hf
          refine ⟨(hnamed.append (.leaf (hfits.leaf _ _) ?_)).mono (by simp), hs.behind⟩
          intro hkind
          have hidentifier := hs.isIdentifier (by simpa [hkind] using hsees)
          rwa [Cursor.kindAt_rest] at hidentifier
          intro hrest
          rw [hrest] at hidentifier
          cases hidentifier
  | seq first second ihfirst ihsecond =>
      obtain ⟨middle, between, hfirst, hsecond⟩ := h
      obtain ⟨between', hnames, hnames'⟩ := Option.bind_eq_some_iff.mp hf
      obtain ⟨_, hheld, hheld'⟩ := Option.bind_eq_some_iff.mp htaken
      obtain ⟨hmiddle, hbetween⟩ := ihfirst hfirst hnames hheld hs hrests hnamed
      exact ihsecond hsecond hnames' hheld' hbetween (hfirst.rests_of_keepsNames hrests) hmiddle
  | choose look yes no ihyes ihno =>
      obtain ⟨_, hnames, hrest⟩ := Option.bind_eq_some_iff.mp hf
      obtain ⟨_, hnames', rfl⟩ := Option.map_eq_some_iff.mp hrest
      obtain ⟨_, hheld, hrest⟩ := Option.bind_eq_some_iff.mp htaken
      obtain ⟨_, hheld', rfl⟩ := Option.map_eq_some_iff.mp hrest
      refine ⟨?_, Sight.holds_blind _⟩
      rcases h with ⟨hlook, hyes⟩ | ⟨_, hno⟩
      · exact (ihyes hyes hnames hheld (look.holds_sight hlook hs) hrests hnamed).1.mono
          Bool.or_inl
      · exact (ihno hno hnames' hheld' hs hrests hnamed).1.mono Bool.or_inr
  | enclose label body ih =>
      obtain ⟨children, hbody, rfl⟩ := h
      obtain ⟨inner, hheld, hrest⟩ := Option.bind_eq_some_iff.mp htaken
      split at hrest
      next => cases hrest
      next hlabel =>
          cases hrest
          obtain ⟨hkind, htakes⟩ := not_or.mp hlabel
          rw [names] at hf
          split at hf
          next hbound =>
              -- the variable itself: its frame holds no other
              cases hf
              rw [isBound_iff] at hbound
              obtain ⟨rfl, hbound, rfl⟩ := hbound
              cases held with
              | true => cases hheld
              | false =>
                  exact ⟨hbody.bound_fits hfits (hs.bound hbound) hrests hnamed,
                    Sight.holds_blind _⟩
          next =>
              obtain ⟨hchildren, hs'⟩ := ih hbody hf hheld hs hrests hnamed
              have htakes : inner = true → label.kind.takesVariable = true := by
                simpa using htakes
              refine ⟨(hchildren.around hkind ?_ htakes).mono nofun, hs'⟩
              exact hfits.named _ hchildren.named
  | within body ih =>
      obtain ⟨nodes, hbody, rfl⟩ := h
      obtain ⟨_, hheld, rfl⟩ := Option.map_eq_some_iff.mp htaken
      obtain ⟨hnodes, hs'⟩ := ih hbody hf hheld hs (.nil hrests.cursor) (.nil fits false)
      exact ⟨hnamed.append hnodes, hs'⟩
  | orElse first second ihfirst ihsecond =>
      obtain ⟨_, hnames, hrest⟩ := Option.bind_eq_some_iff.mp hf
      obtain ⟨_, hnames', rfl⟩ := Option.map_eq_some_iff.mp hrest
      obtain ⟨_, hheld, hrest⟩ := Option.bind_eq_some_iff.mp htaken
      obtain ⟨_, hheld', rfl⟩ := Option.map_eq_some_iff.mp hrest
      refine ⟨?_, Sight.holds_blind _⟩
      obtain ⟨nodes, between, hfirst, hrest⟩ := h
      obtain ⟨hnodes, _⟩ := ihfirst hfirst hnames hheld hs (.nil hrests.cursor) (.nil fits false)
      rcases hrest with ⟨_, hsecond⟩ | ⟨_, rfl, _⟩
      · obtain ⟨hlaid, hfurther⟩ :=
          staysLaid (hfirst.mono fun _ _ _ _ _ h => h.1.staysLaid) (.nil hrests.cursor)
        exact (ihsecond hsecond hnames' hheld' (Sight.holds_blind _)
          (hrests.move hlaid.cursor hfurther) hnamed).1.mono Bool.or_inr
      · exact (hnamed.append hnodes).mono Bool.or_inl
  | ifStuck first second ihfirst ihsecond =>
      obtain ⟨_, hnames, hrest⟩ := Option.bind_eq_some_iff.mp hf
      obtain ⟨_, hnames', rfl⟩ := Option.map_eq_some_iff.mp hrest
      obtain ⟨_, hheld, hrest⟩ := Option.bind_eq_some_iff.mp htaken
      obtain ⟨_, hheld', rfl⟩ := Option.map_eq_some_iff.mp hrest
      refine ⟨?_, Sight.holds_blind _⟩
      obtain ⟨middle, between, hfirst, hrest⟩ := h
      obtain ⟨hmiddle, _⟩ := ihfirst hfirst hnames hheld hs hrests hnamed
      rcases hrest with ⟨_, hsecond⟩ | ⟨_, rfl, _⟩
      · exact (ihsecond hsecond hnames' hheld' (Sight.holds_blind _)
          (hfirst.rests_of_keepsNames hrests) hmiddle).1.mono Bool.or_inr
      · exact hmiddle.mono Bool.or_inl
  | rule r =>
      rw [names] at hf
      split at hf
      next hsees =>
          cases hf
          refine ⟨h.2 _ _ _ _ hrests ?_ htaken hnamed, Sight.holds_blind _⟩
          cases r with
          | typeName => exact hs.name (hsees.resolve_left (by decide))
          | _ => exact Sight.holds_blind _
      next => cases hf

end Form.Does

namespace Grammar

theorem names_binaryOperators (least : Nat) (levels : List (Nat × List TokenKind)) (s : Sight) :
    ((binaryOperators least levels).names s).isSome = true := by
  induction levels with
  | nil => rfl
  | cons level levels ih =>
      unfold binaryOperators
      split
      next =>
          change (((binaryOperators least levels).names s).map fun _ => Sight.blind).isSome = true
          rw [Option.isSome_map]
          exact ih
      next => exact ih

theorem taken_binaryOperators (least : Nat) (levels : List (Nat × List TokenKind)) :
    (binaryOperators least levels).taken false = some false := by
  induction levels with
  | nil => rfl
  | cons level levels ih =>
      unfold binaryOperators
      split
      next =>
          change ((binaryOperators least levels).taken false).map (false || ·) = some false
          rw [ih]
          rfl
      next => exact ih

end Grammar

namespace Rule

theorem names_form (r : Rule) : (r.form.names r.sight).isSome = true := by
  cases r with
  | operators least =>
      change (((Grammar.binaryOperators least Grammar.binaryLevels).names .blind).map
        fun _ => Sight.blind).isSome = true
      rw [Option.isSome_map]
      exact Grammar.names_binaryOperators least _ _
  | nested n => cases n <;> rfl
  | classBody b | localVarDecl b | nameRest b => cases b <;> rfl
  | list close item => cases item <;> rfl
  | _ => rfl

/-- No variable that was taken without looking gets into another node. -/
theorem taken_form (r : Rule) {held held' : Bool} (h : r.taken held = some held') :
    r.form.taken held = some held' := by
  cases held with
  | false =>
      -- where the kind of a node is an argument of the rule, the form is computed up to it
      cases r with
      | operators least =>
          change ((Grammar.binaryOperators least Grammar.binaryLevels).taken false).map
            (false || ·) = some held'
          rw [Grammar.taken_binaryOperators]
          exact h
      | typeArguments kind | switch kind =>
          rw [Rule.taken] at h
          split at h
          next => cases h
          next hkind =>
              have hlabel : ¬(kind = .identifier ∨ false = true ∧ kind.takesVariable = false) := by
                simp [hkind]
              exact (if_neg hlabel).trans h
      | nested n => cases n <;> exact h
      | classBody b | localVarDecl b | nameRest b => cases b <;> exact h
      | list close item => cases item <;> exact h
      | _ => exact h
  | true =>
      cases r with
      | statements closers => exact h
      | caseLabels => exact h
      | _ => cases h

theorem Reads.keepsNames {source : Bytes} {fits : Node → Prop} (hfits : FitsNames source fits)
    {r : Rule} {frame frame' : Frame} {c c' : Cursor} (h : r.Reads frame c frame' c') :
    KeepsNames source fits r frame c frame' c' := by
  refine ⟨h, h.induct_reads (fun r frame c frame' c' => ∀ edge start held held',
    frame.Rests source edge start c → r.sight.Holds c.rest → r.taken held = some held' →
      frame.AllNamed fits held → frame'.AllNamed fits held') ?_⟩
  intro r frame c frame' c' hform edge start held held' hrests hs htaken hnamed
  obtain ⟨s', hs'⟩ := Option.isSome_iff_exists.mp r.names_form
  exact (Form.Does.keepsNames hfits hform hs' (r.taken_form htaken) hs hrests hnamed).1

end Rule

/-- Whatever fits the names as the grammar takes them holds throughout every tree. -/
theorem Entry.parse_allNamed (entry : Entry) {source : Bytes} {fits : Node → Prop}
    (hfits : FitsNames source fits) : Frame.AllNamed fits false [entry.parse source] := by
  obtain ⟨frame, c, hread⟩ := entry.read?_isSome source
  obtain ⟨node, rfl⟩ := Entry.read?_eq_singleton hread
  have hkeeps : KeepsNames source fits entry.rule [] (Cursor.ofSource source) [node] c :=
    Rule.Reads.keepsNames hfits ⟨_, hread⟩
  have hsight : entry.rule.sight.Holds (Cursor.ofSource source).rest := by
    cases entry <;> exact Sight.holds_blind _
  have htaken : entry.rule.taken false = some false := by cases entry <;> rfl
  simp only [Entry.parse, hread]
  exact hkeeps.2 _ _ _ _ (.nil (Cursor.placed_ofSource source)) hsight htaken (.nil fits false)

/-- The variable that is taken without looking follows a token of its node. -/
theorem Node.fitsNames_namesFit (source : Bytes) : FitsNames source (Node.NamesFit source) where
  named := fun _ => .inl
  bound := by
    intro edge start frame middle nodes c between c' p hrests hmodifiers htype hbound hnamed
    have hmiddle := (hmodifiers.staysLaid _ _ hrests).1
    have hnodes := (htype.staysLaid _ _ (.nil hmiddle.cursor)).1
    have hkeeps : c.KeepsLast (middle ++ nodes) c' := by
      refine Form.keepsLast_of_parts hmodifiers.onward htype.onward
        (hmodifiers.retains.small rfl) (by simp) ?_
      intro hsolid htaken
      obtain ⟨v, hv, hlast⟩ := htype.retains.small rfl hsolid htaken
      exact ⟨v, by simp [hv], hlast⟩
    obtain ⟨v, hv, hlast⟩ := hkeeps hrests.cursor.solid
      (hmodifiers.bound_moves htype hrests.cursor.solid hbound)
    refine .inr ⟨middle ++ nodes, _, rfl, hnamed, ?_⟩
    rintro _ ⟨⟩
    exact ⟨v, hv, hnodes.cursor.follows hlast⟩

/-- The names of every tree fit. -/
theorem Entry.parse_namesFit (entry : Entry) (source : Bytes) :
    (entry.parse source).Every (Node.NamesFit source) :=
  ((entry.parse_allNamed (Node.fitsNames_namesFit source)).every _ (List.mem_singleton_self _)).imp
    fun _ h => h.own.1

end DotCompletion
