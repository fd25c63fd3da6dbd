import Mathlib.Data.List.Find
import DotCompletion.Proofs.Token.Spaced
import DotCompletion.Proofs.Typing.Termination

/-!
# Trees that share a part

Two trees have a part in common, but its nodes have other numbers in the second tree. What
the queries of the first tree tell about the part, those of the second tell about it as
well, with the numbers translated: this module goes through them from the links between
nodes up to what scopes tell their children (`Sharing.bindingIn?`).

One node of the part may have other children in the second tree. It is a block or an `if`
statement, and no query looks at the children of these but by going from one child to those
in front of it.
-/

namespace DotCompletion

/-- The same binding in a tree with other numbers. -/
def Binding.translate (f : Nat → Nat) : Binding → Binding
  | ofExpression id => ofExpression (f id)
  | known type => known type
  | unknown => unknown

/-- The same step in a tree with other numbers. -/
def TypeStep.translate (f : Nat → Nat) (s : TypeStep) : TypeStep :=
  ⟨s.operands.map f, s.combine⟩

namespace TypeStep

variable (f : Nat → Nat)

@[simp] theorem translate_always (type : Option StaticType) :
    (always type).translate f = always type := rfl

@[simp] theorem translate_one (a : Option Nat) (g : StaticType → Option StaticType) :
    (one a g).translate f = one (a.map f) g := by
  cases a <;> rfl

@[simp] theorem translate_two (a b : Option Nat)
    (g : Option StaticType → Option StaticType → Option StaticType) :
    (two a b g).translate f = two (a.map f) (b.map f) g := by
  cases a <;> cases b <;> rfl

theorem translate_ofBinding (b : Option Binding) :
    (ofBinding b).translate f = ofBinding (b.map (Binding.translate f)) := by
  rcases b with _ | (_ | _ | _) <;> rfl

end TypeStep

namespace Tree

variable {t u : Tree} {i j c : Nat}

/-- A part of the tree `t` that stands in the tree `u` as well. -/
structure Sharing (t u : Tree) where
  /-- The nodes of the part. -/
  Kept : Nat → Prop
  /-- The nodes that belong to it with all below them. -/
  Whole : Nat → Prop
  /-- The number in the second tree. -/
  move : Nat → Nat
  /-- The node that may have other children there. -/
  spot : Nat
  spot_kind : ∀ kind, t.kind? spot = some kind → kind = .block ∨ kind = .ifStmt
  injective : ∀ {i j}, Kept i → Kept j → move i = move j → i = j
  kept : ∀ {i}, Whole i → Kept i
  ne_spot : ∀ {i}, Whole i → i ≠ spot
  kind : ∀ {i}, Kept i → u.kind? (move i) = t.kind? i
  lexeme : ∀ {i}, Kept i → (u.token? (move i)).map Token.lexeme = (t.token? i).map Token.lexeme
  text : ∀ {i}, Whole i → u.text (move i) = t.text i
  /-- Words and types belong to the part as a whole if they do at all. -/
  word : ∀ {i}, Kept i → t.isA .identifier i = true → Whole i
  type : ∀ {i}, Kept i → t.isA .typeUse i = true → Whole i
  children : ∀ {i}, Kept i → i ≠ spot → u.children (move i) = (t.children i).map move
  kept_child : ∀ {i c}, Kept i → i ≠ spot → c ∈ t.children i → Kept c
  whole_child : ∀ {i c}, Whole i → c ∈ t.children i → Whole c
  firstChild : ∀ {i}, Kept i → i ≠ spot → u.firstChild? (move i) = (t.firstChild? i).map move
  lastChild : ∀ {i}, Kept i → i ≠ spot → u.lastChild? (move i) = (t.lastChild? i).map move
  mem_firstChild : ∀ {i c}, t.firstChild? i = some c → c ∈ t.children i
  mem_lastChild : ∀ {i c}, t.lastChild? i = some c → c ∈ t.children i
  previous : ∀ {i c}, Kept i → i ≠ spot → c ∈ t.children i →
    u.previous? (move c) = (t.previous? c).map move
  kept_previous : ∀ {i c p}, Kept i → i ≠ spot → c ∈ t.children i → t.previous? c = some p →
    Kept p
  before : ∀ {i c}, Kept i → i ≠ spot → c ∈ t.children i →
    u.before (move c) = (t.before c).map move
  parent : ∀ {i}, Kept i → u.parent? (move i) = (t.parent? i).map move
  kept_parent : ∀ {i a}, Kept i → t.parent? i = some a → Kept a
  ancestors : ∀ {i}, Kept i → u.ancestors (move i) = (t.ancestors i).map move
  kept_ancestor : ∀ {i a}, Kept i → a ∈ t.ancestors i → Kept a
  walk : ∀ {i} enter, Whole i → u.walk enter (move i) = (t.walk enter i).map move
  kept_walk : ∀ {i j} enter, Whole i → j ∈ t.walk enter i → Whole j

namespace Sharing

variable (s : Sharing t u) {name : Bytes} {kinds : List NodeKind} {l : List Nat} {o : Option Nat}

/-! ## Nodes and their children -/

theorem hasKind (h : s.Kept i) (p : NodeKind → Bool) :
    u.hasKind p (s.move i) = t.hasKind p i := by
  rw [Tree.hasKind, s.kind h, Tree.hasKind]

theorem isA (h : s.Kept i) (kind : NodeKind) : u.isA kind (s.move i) = t.isA kind i :=
  s.hasKind h _

theorem isExpression (h : s.Kept i) : u.isExpression (s.move i) = t.isExpression i :=
  s.hasKind h _

theorem ne_spot_of_kind {kind : NodeKind} (h : t.kind? i = some kind)
    (hother : kind ∉ [NodeKind.block, .ifStmt]) : i ≠ s.spot := by
  rintro rfl
  exact hother (List.mem_pair.mpr (s.spot_kind kind h))

theorem kind?_of_hasKind {p : NodeKind → Bool} (h : t.hasKind p i = true) :
    ∃ kind, t.kind? i = some kind ∧ p kind = true := by
  rw [Tree.hasKind] at h
  cases hkind : t.kind? i with
  | none =>
      rw [hkind] at h
      cases h
  | some kind =>
      rw [hkind] at h
      exact ⟨kind, rfl, h⟩

theorem ne_spot_of_isA {kind : NodeKind} (h : t.isA kind i = true)
    (hother : kind ∉ [NodeKind.block, .ifStmt]) : i ≠ s.spot := by
  obtain ⟨_, hkind, heq⟩ := kind?_of_hasKind h
  cases beq_iff_eq.mp heq
  exact s.ne_spot_of_kind hkind hother

theorem tokenKind (h : s.Kept i) :
    (u.token? (s.move i)).map Token.kind = (t.token? i).map Token.kind := by
  have hlexeme := congrArg (Option.map Lexeme.kind) (s.lexeme h)
  rw [Option.map_map, Option.map_map] at hlexeme
  exact hlexeme

theorem tokenText (h : ∀ i ∈ o, s.Kept i) : u.tokenText (o.map s.move) = t.tokenText o := by
  cases o with
  | none => rfl
  | some i =>
      have hlexeme := congrArg (Option.map Lexeme.text) (s.lexeme (h i rfl))
      rw [Option.map_map, Option.map_map] at hlexeme
      rw [Tree.tokenText, Tree.tokenText, Option.map_some, Option.bind_some, Option.bind_some]
      exact congrArg (Option.getD · []) hlexeme

theorem find?_move (hl : ∀ i ∈ l, s.Kept i) {p q : Nat → Bool}
    (hpq : ∀ i, s.Kept i → q (s.move i) = p i) :
    (l.map s.move).find? q = (l.find? p).map s.move := by
  rw [List.find?_map]
  congr 1
  exact List.find?_congr fun i hi => hpq i (hl i hi)

theorem filter_move (hl : ∀ i ∈ l, s.Kept i) {p q : Nat → Bool}
    (hpq : ∀ i, s.Kept i → q (s.move i) = p i) :
    (l.map s.move).filter q = (l.filter p).map s.move := by
  rw [List.filter_map]
  congr 1
  exact List.filter_congr fun i hi => hpq i (hl i hi)

theorem any_move (hl : ∀ i ∈ l, s.Kept i) {p q : Nat → Bool}
    (hpq : ∀ i, s.Kept i → q (s.move i) = p i) : (l.map s.move).any q = l.any p := by
  induction l with
  | nil => rfl
  | cons i l ih =>
      obtain ⟨hi, hl⟩ := List.forall_mem_cons.mp hl
      rw [List.map_cons, List.any_cons, List.any_cons, hpq i hi, ih hl]

theorem optionFilter_move (ho : ∀ i ∈ o, s.Kept i) {p q : Nat → Bool}
    (hpq : ∀ i, s.Kept i → q (s.move i) = p i) :
    (o.map s.move).filter q = (o.filter p).map s.move := by
  cases o with
  | none => rfl
  | some i =>
      rw [Option.map_some, Option.filter_some, Option.filter_some, hpq i (ho i rfl)]
      split <;> rfl

theorem findSome?_move {α β : Type} {m : α → β} {l : List α} {f : α → Option Binding}
    {g : β → Option Binding}
    (hfg : ∀ a ∈ l, g (m a) = (f a).map (Binding.translate s.move)) :
    (l.map m).findSome? g = (l.findSome? f).map (Binding.translate s.move) := by
  induction l with
  | nil => rfl
  | cons a l ih =>
      obtain ⟨ha, hl⟩ := List.forall_mem_cons.mp hfg
      rw [List.map_cons, List.findSome?_cons, List.findSome?_cons, ha, ih hl]
      cases f a <;> rfl

theorem firstOfKind? (h : s.Kept i) (hspot : i ≠ s.spot) (kinds : List NodeKind) :
    u.firstOfKind? kinds (s.move i) = (t.firstOfKind? kinds i).map s.move := by
  rw [Tree.firstOfKind?, s.children h hspot]
  exact s.find?_move (fun _ => s.kept_child h hspot) fun _ hi => s.hasKind hi _

theorem kept_firstOfKind? (h : s.Kept i) (hspot : i ≠ s.spot) {c : Nat}
    (hc : c ∈ t.firstOfKind? kinds i) : s.Kept c :=
  s.kept_child h hspot (mem_children_of_firstOfKind? hc)

theorem kept_firstChild (h : s.Kept i) (hspot : i ≠ s.spot) (hc : t.firstChild? i = some c) :
    s.Kept c := s.kept_child h hspot (s.mem_firstChild hc)

theorem kept_lastChild (h : s.Kept i) (hspot : i ≠ s.spot) (hc : t.lastChild? i = some c) :
    s.Kept c := s.kept_child h hspot (s.mem_lastChild hc)

theorem isA_firstOfKind? {kind : NodeKind} (hc : c ∈ t.firstOfKind? [kind] i) :
    t.isA kind c = true := by
  obtain ⟨_, hkind, hmem⟩ := kind?_of_hasKind (List.find?_some hc)
  obtain rfl := List.mem_singleton.mp (List.contains_iff_mem.mp hmem)
  rw [Tree.isA, Tree.hasKind, hkind]
  exact beq_self_eq_true _

/-! ## Written types -/

theorem isSign (h : s.Kept i) (sign : TokenKind) :
    (u.isA .token (s.move i) && (u.token? (s.move i)).map Token.kind == some sign) =
      (t.isA .token i && (t.token? i).map Token.kind == some sign) := by
  rw [s.isA h, s.tokenKind h]

theorem dimensions (h : s.Kept i) (hspot : i ≠ s.spot) :
    u.dimensions (s.move i) = t.dimensions i := by
  rw [Tree.dimensions, s.children h hspot,
    s.filter_move (fun _ => s.kept_child h hspot) fun _ hc => s.isSign hc .lbracket,
    List.length_map, Tree.dimensions]

theorem foldl_appendToken {tokens tokens' : List Token}
    (h : tokens'.map Token.lexeme = tokens.map Token.lexeme) (text : Bytes) :
    tokens'.foldl appendToken text = tokens.foldl appendToken text := by
  induction tokens generalizing tokens' text with
  | nil => rw [List.map_eq_nil_iff.mp h]
  | cons token tokens ih =>
      obtain ⟨token', tokens', rfl, htoken, htokens⟩ := List.map_eq_cons_iff.mp h
      obtain ⟨hkind, hliteral⟩ := Lexeme.mk.inj htoken
      have happend : appendToken text token' = appendToken text token := by
        rw [appendToken, appendToken, hkind, hliteral]
      rw [List.foldl_cons, List.foldl_cons, happend, ih htokens]

theorem lexemes (hl : ∀ i ∈ l, s.Kept i) :
    ((l.map s.move).filterMap u.token?).map Token.lexeme =
      (l.filterMap t.token?).map Token.lexeme := by
  rw [List.filterMap_map, List.map_filterMap, List.map_filterMap]
  exact List.filterMap_congr fun i hi => s.lexeme (hl i hi)

theorem writtenType? (h : s.Kept i) : u.writtenType? (s.move i) = t.writtenType? i := by
  rw [Tree.writtenType?, Tree.writtenType?, s.isA h]
  split
  next htype =>
      have hwhole := s.type h htype
      have hkept : ∀ j ∈ t.walk (· != .annotationUse) i, s.Kept j := fun _ hj =>
        s.kept (s.kept_walk _ hwhole hj)
      dsimp only
      rw [s.walk _ hwhole,
        s.filter_move hkept fun j hj => congrArg (!·) (s.isA hj .annotationUse),
        foldl_appendToken (s.lexemes fun j hj => hkept j (List.mem_of_mem_filter hj))]
  next => rfl

/-- The type that a node is written with. -/
theorem firstWritten? (h : s.Kept i) (hspot : i ≠ s.spot) :
    (u.firstOfKind? [.typeUse] (s.move i)).bind u.writtenType? =
      (t.firstOfKind? [.typeUse] i).bind t.writtenType? := by
  rw [s.firstOfKind? h hspot]
  cases htype : t.firstOfKind? [.typeUse] i with
  | none => rfl
  | some type => exact s.writtenType? (s.kept_firstOfKind? h hspot htype)

theorem infersTypes (h : s.Kept i) (hspot : i ≠ s.spot) :
    u.infersTypes (s.move i) = t.infersTypes i := by
  rw [Tree.infersTypes, Tree.infersTypes, s.firstOfKind? h hspot]
  cases htype : t.firstOfKind? [.typeUse] i with
  | none => rfl
  | some type =>
      have hkept := s.kept_firstOfKind? h hspot htype
      have hne := s.ne_spot_of_isA (isA_firstOfKind? htype) (by decide)
      simp only [Option.map_some, Option.bind_some, s.firstChild hkept hne]
      cases hfirst : t.firstChild? type with
      | none => rfl
      | some first => exact congrArg (· == _) (s.tokenKind (s.kept_firstChild hkept hne hfirst))

/-! ## Declarations -/

theorem variableBinding? (h : s.Kept i) (hspot : i ≠ s.spot) :
    u.variableBinding? (s.move i) name =
      (t.variableBinding? i name).map (Binding.translate s.move) := by
  have hnamed : ∀ v, s.Kept v →
      (u.isA .declarator (s.move v) &&
          u.tokenText (u.firstOfKind? [.identifier] (s.move v)) == name) =
        (t.isA .declarator v && t.tokenText (t.firstOfKind? [.identifier] v) == name) := by
    intro v hv
    rw [s.isA hv]
    cases hkind : t.isA .declarator v with
    | false => rfl
    | true =>
        have hne := s.ne_spot_of_isA hkind (by decide)
        rw [s.firstOfKind? hv hne, s.tokenText fun _ => s.kept_firstOfKind? hv hne]
  rw [Tree.variableBinding?, s.children h hspot,
    s.find?_move (fun _ => s.kept_child h hspot) hnamed, Option.map_map,
    Tree.variableBinding?, Option.map_map]
  refine Option.map_congr fun v hv => ?_
  have hkept := s.kept_child h hspot (List.mem_of_find?_eq_some hv)
  have hboth := List.find?_some hv
  rw [Bool.and_eq_true] at hboth
  have hne := s.ne_spot_of_isA hboth.1 (by decide)
  simp only [Function.comp_apply]
  rw [s.infersTypes h hspot, s.lastChild hkept hne, s.dimensions hkept hne,
    s.firstWritten? h hspot,
    s.optionFilter_move (fun _ => s.kept_lastChild hkept hne) fun _ hi => s.isExpression hi]
  split
  next =>
      cases (t.lastChild? v).filter t.isExpression <;> rfl
  next =>
      split <;> rfl

/-- What gives its type outright means the same in both trees. -/
theorem translate_of_ne {b : Option Binding} (h : ∀ e, b ≠ some (.ofExpression e)) :
    b.map (Binding.translate s.move) = b := by
  rcases b with _ | (_ | _ | e)
  · rfl
  · rfl
  · rfl
  · exact absurd rfl (h e)

theorem optionIsA (ho : ∀ i ∈ o, s.Kept i) (kind : NodeKind) :
    (o.map s.move).map (u.isA kind) = o.map (t.isA kind) := by
  cases o with
  | none => rfl
  | some i => exact congrArg some (s.isA (ho i rfl) kind)

theorem parameterBinding? (h : s.Kept i) (hspot : i ≠ s.spot) :
    u.parameterBinding? (s.move i) name =
      (t.parameterBinding? i name).map (Binding.translate s.move) := by
  rw [s.translate_of_ne fun _ => parameterBinding?_ne]
  have hchildren : ∀ c ∈ t.children i, s.Kept c := fun _ => s.kept_child h hspot
  have hident : ((t.children i).map s.move).reverse.find? (fun c => !u.isA .token c) =
      ((t.children i).reverse.find? fun c => !t.isA .token c).map s.move := by
    rw [← List.map_reverse]
    exact s.find?_move (fun c hc => hchildren c (List.mem_reverse.mp hc))
      fun c hc => congrArg (!·) (s.isA hc .token)
  have hkept : ∀ c ∈ (t.children i).reverse.find? fun c => !t.isA .token c, s.Kept c :=
    fun c hc => hchildren c (List.mem_reverse.mp (List.mem_of_find?_eq_some hc))
  rw [Tree.parameterBinding?, Tree.parameterBinding?]
  dsimp only
  rw [s.children h hspot, hident, s.optionIsA hkept, s.tokenText hkept,
    s.any_move hchildren fun _ hc => s.isSign hc .ellipsis,
    s.filter_move hchildren fun _ hc => s.isA hc .typeUse, s.dimensions h hspot]
  split
  next =>
      have htypes : ∀ c ∈ (t.children i).filter (t.isA .typeUse), s.Kept c := fun c hc =>
        hchildren c (List.mem_of_mem_filter hc)
      generalize (t.children i).filter (t.isA .typeUse) = types at htypes
      rcases types with _ | ⟨type, _ | _⟩
      · rfl
      · simp only [List.map_cons, List.map_nil]
        rw [s.writtenType? (htypes type List.mem_cons_self)]
      · rfl
  next => rfl

theorem listedBinding? (ho : ∀ i ∈ o, s.Kept i ∧ i ≠ s.spot) :
    u.listedBinding? (o.map s.move) name =
      (t.listedBinding? o name).map (Binding.translate s.move) := by
  cases o with
  | none => rfl
  | some i =>
      obtain ⟨h, hspot⟩ := ho i rfl
      have hchildren : ∀ c ∈ t.children i, s.Kept c := fun _ => s.kept_child h hspot
      change ((u.children (s.move i)).filter (u.isA .parameter)).findSome? _ = _
      rw [s.children h hspot, s.filter_move hchildren fun _ hc => s.isA hc .parameter]
      refine s.findSome?_move fun c hc => ?_
      obtain ⟨hc, hkind⟩ := List.mem_filter.mp hc
      exact s.parameterBinding? (hchildren c hc) (s.ne_spot_of_isA hkind (by decide))

theorem parametersBinding? (h : s.Kept i) (hspot : i ≠ s.spot) :
    u.listedBinding? (u.firstOfKind? [.parameters] (s.move i)) name =
      (t.listedBinding? (t.firstOfKind? [.parameters] i) name).map (Binding.translate s.move) := by
  rw [s.firstOfKind? h hspot]
  refine s.listedBinding? fun c hc => ⟨s.kept_firstOfKind? h hspot hc, ?_⟩
  exact s.ne_spot_of_isA (isA_firstOfKind? hc) (by decide)

theorem fieldBinding? (h : s.Kept i) (hspot : i ≠ s.spot) :
    u.fieldBinding? (s.move i) name =
      (t.fieldBinding? i name).map (Binding.translate s.move) := by
  have hchildren : ∀ c ∈ t.children i, s.Kept c := fun _ => s.kept_child h hspot
  have hdeclared : ((u.children (s.move i)).filter (u.isA .fieldDecl)).findSome?
        (u.variableBinding? · name) =
      (((t.children i).filter (t.isA .fieldDecl)).findSome?
        (t.variableBinding? · name)).map (Binding.translate s.move) := by
    rw [s.children h hspot, s.filter_move hchildren fun _ hc => s.isA hc .fieldDecl]
    refine s.findSome?_move fun c hc => ?_
    obtain ⟨hc, hkind⟩ := List.mem_filter.mp hc
    exact s.variableBinding? (hchildren c hc) (s.ne_spot_of_isA hkind (by decide))
  rw [Tree.fieldBinding?, Tree.fieldBinding?, hdeclared, s.parent h,
    s.optionFilter_move (fun _ => s.kept_parent h) fun _ ha => s.isA ha .recordDecl]
  cases ((t.children i).filter (t.isA .fieldDecl)).findSome? (t.variableBinding? · name) with
  | some b => rfl
  | none =>
      cases hrecord : (t.parent? i).filter (t.isA .recordDecl) with
      | none => rfl
      | some record =>
          obtain ⟨hparent, hkind⟩ := Option.filter_eq_some_iff.mp hrecord
          exact s.parametersBinding? (s.kept_parent h hparent)
            (s.ne_spot_of_isA hkind (by decide))

theorem siblingBinding? (h : s.Kept i) :
    u.siblingBinding? (s.move i) name =
      (t.siblingBinding? i name).map (Binding.translate s.move) := by
  rw [Tree.siblingBinding?, Tree.siblingBinding?, s.kind h]
  split
  next hkind => exact s.variableBinding? h (s.ne_spot_of_kind hkind (by decide))
  next hkind => exact s.parameterBinding? h (s.ne_spot_of_kind hkind (by decide))
  next => rfl

theorem lambdaBinding? (h : s.Kept i) :
    u.lambdaBinding? (s.move i) name =
      (t.lambdaBinding? i name).map (Binding.translate s.move) := by
  rw [Tree.lambdaBinding?, Tree.lambdaBinding?, s.kind h]
  split
  next =>
      rw [← Option.map_some, s.tokenText fun j hj => by cases hj; exact h]
      split <;> rfl
  next hkind => exact s.parameterBinding? h (s.ne_spot_of_kind hkind (by decide))
  next => rfl

/-- The test of a whole node is read as it stands. -/
theorem patternBinding? (h : s.Whole i) :
    u.patternBinding? (s.move i) name = t.patternBinding? i name := by
  refine Eq.trans ?_ (s.translate_of_ne fun _ => patternBinding?_ne)
  rw [Tree.patternBinding?, Tree.patternBinding?, s.walk _ h]
  refine s.findSome?_move fun j hj => ?_
  have hwhole := s.kept_walk _ h hj
  have hkept := s.kept hwhole
  rw [s.isA hkept, s.lastChild hkept (s.ne_spot hwhole)]
  split
  next =>
      cases hlast : t.lastChild? j with
      | none => rfl
      | some last =>
          have hmem := s.mem_lastChild hlast
          have hlast := s.kept (s.whole_child hwhole hmem)
          simp only [Option.map_some]
          rw [s.isA hlast, ← Option.map_some, s.tokenText fun j hj => by cases hj; exact hlast,
            s.previous hkept (s.ne_spot hwhole) hmem]
          split
          next =>
              cases hprevious : t.previous? last with
              | none => rfl
              | some type =>
                  have htype := s.kept_previous hkept (s.ne_spot hwhole) hmem hprevious
                  rw [Option.map_some, Option.bind_some, Option.bind_some, s.writtenType? htype]
                  cases t.writtenType? type <;> rfl
          next => rfl
  next => rfl

/-! ## Scopes -/

/-- All that stands in front of a node belongs to the part. -/
structure Ahead (c : Nat) : Prop where
  before : u.before (s.move c) = (t.before c).map s.move
  whole : ∀ b ∈ t.before c, s.Whole b

/-- What a scope tells one of its children does not depend on the other tree: the child is
the one that tells all the others, or these stand in front of it and belong to the part,
or only the tests in front of it matter, and they say the same. -/
inductive Told (child scope : Nat) : Prop
  | leader (h : t.leader? scope = some child)
  | ahead (hleader : ∀ l, t.leader? scope = some l → s.Whole l) (h : s.Ahead child)
  | tests (hkind : t.kind? scope = some .ifStmt)
      (h : ∀ name, (u.before (s.move child)).findSome? (u.patternBinding? · name) =
        (t.before child).findSome? (t.patternBinding? · name))

variable {s} {child scope : Nat} {kind : NodeKind}

theorem Told.toAhead (h : s.Told child scope) (hleader : t.leader? scope = none)
    (hkind : t.kind? scope ≠ some .ifStmt) : s.Ahead child := by
  cases h with
  | leader h => cases hleader.symm.trans h
  | ahead _ h => exact h
  | tests h => exact absurd h hkind

theorem Ahead.findSome? (h : s.Ahead child) {f g : Nat → Option Binding}
    (hfg : ∀ i, s.Whole i → g (s.move i) = (f i).map (Binding.translate s.move)) :
    (u.before (s.move child)).findSome? g =
      ((t.before child).findSome? f).map (Binding.translate s.move) := by
  rw [h.before]
  exact s.findSome?_move fun i hi => hfg i (h.whole i hi)

/-- The tests in front of a child say the same. -/
theorem Told.findSome?_patternBinding? (h : s.Told child scope) (hleader : t.leader? scope = none) :
    (u.before (s.move child)).findSome? (u.patternBinding? · name) =
      ((t.before child).findSome? (t.patternBinding? · name)).map (Binding.translate s.move) := by
  have houtright : ∀ e, (t.before child).findSome? (t.patternBinding? · name) ≠
      some (.ofExpression e) := by
    intro e he
    obtain ⟨_, -, he⟩ := List.exists_of_findSome?_eq_some he
    exact patternBinding?_ne he
  cases h with
  | leader h => cases hleader.symm.trans h
  | ahead _ h =>
      refine h.findSome? fun i hi => ?_
      rw [s.patternBinding? hi, s.translate_of_ne fun _ => patternBinding?_ne]
  | tests _ h => rw [h, s.translate_of_ne houtright]

/-- What the first child of a kind tells the others. -/
theorem bind_firstOfKind? (hscope : s.Kept scope) (hspot : scope ≠ s.spot)
    (hchild : s.Kept child) {f g : Nat → Option Binding}
    (hfg : ∀ c, s.Kept c → t.isA kind c = true →
      g (s.move c) = (f c).map (Binding.translate s.move)) :
    ((u.firstOfKind? [kind] (s.move scope)).filter (· != s.move child)).bind g =
      (((t.firstOfKind? [kind] scope).filter (· != child)).bind f).map
        (Binding.translate s.move) := by
  have hkept : ∀ c ∈ t.firstOfKind? [kind] scope, s.Kept c := fun _ =>
    s.kept_firstOfKind? hscope hspot
  have hne : ∀ c, s.Kept c → (s.move c != s.move child) = (c != child) := fun c hc => by
    rw [Bool.eq_iff_iff, bne_iff_ne, bne_iff_ne]
    exact not_congr ⟨s.injective hc hchild, congrArg s.move⟩
  rw [s.firstOfKind? hscope hspot, s.optionFilter_move hkept hne]
  cases hfound : (t.firstOfKind? [kind] scope).filter (· != child) with
  | none => rfl
  | some c =>
      obtain ⟨hc, -⟩ := Option.filter_eq_some_iff.mp hfound
      exact hfg c (hkept c hc) (isA_firstOfKind? hc)

theorem bindingIn? (h : s.Told child scope) (hchild : s.Kept child) (hscope : s.Kept scope) :
    u.bindingIn? name (s.move child) (s.move scope) =
      (t.bindingIn? name child scope).map (Binding.translate s.move) := by
  unfold Tree.bindingIn?
  rw [s.kind hscope]
  split
  -- blocks, cases and resources
  case h_1 hkind | h_2 hkind | h_3 hkind =>
      have hahead := h.toAhead (by simp [leader?, hkind]) (by simp [hkind])
      exact hahead.findSome? fun i hi => s.siblingBinding? (s.kept hi)
  case h_4 hkind =>
      have hspot := s.ne_spot_of_kind hkind (by decide)
      exact bind_firstOfKind? hscope hspot hchild fun c hc hdecl =>
        s.variableBinding? hc (s.ne_spot_of_isA hdecl (by decide))
  case h_5 hkind =>
      have hspot := s.ne_spot_of_kind hkind (by decide)
      refine bind_firstOfKind? hscope hspot hchild fun c hc hresources => ?_
      have hne := s.ne_spot_of_isA hresources (by decide)
      rw [s.children hc hne,
        s.filter_move (fun _ => s.kept_child hc hne) fun _ hi => s.isA hi .localVarDecl]
      refine s.findSome?_move fun i hi => ?_
      obtain ⟨hi, hdecl⟩ := List.mem_filter.mp hi
      exact s.variableBinding? (s.kept_child hc hne hi) (s.ne_spot_of_isA hdecl (by decide))
  case h_6 hkind | h_7 hkind =>
      have hspot := s.ne_spot_of_kind hkind (by decide)
      exact bind_firstOfKind? hscope hspot hchild fun c hc hparam =>
        s.parameterBinding? hc (s.ne_spot_of_isA hparam (by decide))
  case h_8 hkind | h_9 hkind | h_10 hkind =>
      exact s.parametersBinding? hscope (s.ne_spot_of_kind hkind (by decide))
  case h_11 hkind =>
      have hspot := s.ne_spot_of_kind hkind (by decide)
      rw [s.firstOfKind? hscope hspot]
      cases hparams : t.firstOfKind? [.lambdaParameters] scope with
      | none => rfl
      | some params =>
          have hkept := s.kept_firstOfKind? hscope hspot hparams
          have hne := s.ne_spot_of_isA (isA_firstOfKind? hparams) (by decide)
          change (u.children (s.move params)).findSome? _ = _
          rw [s.children hkept hne]
          exact s.findSome?_move fun c hc => s.lambdaBinding? (s.kept_child hkept hne hc)
  -- tests in front
  case h_12 hkind | h_13 hkind | h_14 hkind | h_15 hkind =>
      exact h.findSome?_patternBinding? (by simp [leader?, hkind])
  case h_16 hkind => exact s.fieldBinding? hscope (s.ne_spot_of_kind hkind (by decide))
  case h_17 => rfl

/-! ## Steps -/

theorem ancestor? (h : s.Kept i) (p : NodeKind → Bool) :
    u.ancestor? p (s.move i) = (t.ancestor? p i).map s.move := by
  rw [Tree.ancestor?, s.ancestors h]
  exact s.find?_move (fun _ => s.kept_ancestor h) fun _ ha => s.hasKind ha p

theorem kept_ancestor? (h : s.Kept i) {p : NodeKind → Bool} {a : Nat}
    (ha : t.ancestor? p i = some a) : s.Kept a :=
  s.kept_ancestor h (List.mem_of_find?_eq_some ha)

theorem ownFieldBinding? (h : s.Kept i) (name : Bytes) :
    u.ownFieldBinding? (s.move i) name =
      (t.ownFieldBinding? i name).map (Binding.translate s.move) := by
  rw [Tree.ownFieldBinding?, Tree.ownFieldBinding?, ancestor? h]
  cases hbody : t.ancestor? (· == .classBody) i with
  | none => rfl
  | some body =>
      have hkind : t.isA .classBody body = true := List.find?_some hbody
      exact s.fieldBinding? (kept_ancestor? h hbody) (s.ne_spot_of_isA hkind (by decide))

theorem enclosingClass? (h : s.Kept i) : u.enclosingClass? (s.move i) = t.enclosingClass? i := by
  rw [Tree.enclosingClass?, Tree.enclosingClass?, ancestor? h]
  cases hdecl : t.ancestor? _ i with
  | none => rfl
  | some decl =>
      have hkept := kept_ancestor? h hdecl
      have hspot : decl ≠ s.spot := by
        obtain ⟨kind, hkind, hmem⟩ := kind?_of_hasKind (List.find?_some hdecl)
        refine s.ne_spot_of_kind hkind fun hother => ?_
        rcases List.mem_pair.mp hother with rfl | rfl
        · cases hmem
        · cases hmem
      simp only [Option.map_some, Option.bind_eq_bind, Option.bind_some,
        s.firstOfKind? hkept hspot]
      cases hname : t.firstOfKind? [.identifier] decl with
      | none => rfl
      | some word =>
          have hword := s.word (s.kept_firstOfKind? hkept hspot hname) (isA_firstOfKind? hname)
          simp only [Option.map_some, Option.bind_some, s.text hword]

theorem literal (h : s.Kept i) :
    (u.token? (s.move i)).bind literalType = (t.token? i).bind literalType := by
  have hlexeme := s.lexeme h
  cases htoken : t.token? i with
  | none =>
      rw [htoken, Option.map_none, Option.map_eq_none_iff] at hlexeme
      rw [hlexeme]
  | some a =>
      rw [htoken, Option.map_some, Option.map_eq_some_iff] at hlexeme
      obtain ⟨b, hb, heq⟩ := hlexeme
      obtain ⟨hkind, hliteral⟩ := Lexeme.mk.inj heq
      rw [hb, Option.bind_some, Option.bind_some, literalType, literalType, hkind, hliteral]

theorem operator? (h : s.Kept i) (hspot : i ≠ s.spot) : u.operator? (s.move i) = t.operator? i := by
  have hchildren : ∀ c ∈ t.children i, s.Kept c := fun _ => s.kept_child h hspot
  rw [Tree.operator?, Tree.operator?, s.children h hspot,
    s.find?_move hchildren fun _ hc => s.isA hc .token]
  cases hsign : (t.children i).find? (t.isA .token) with
  | none => rfl
  | some c => exact s.tokenKind (hchildren c (List.mem_of_find?_eq_some hsign))

theorem newArrayType? (h : s.Kept i) (hspot : i ≠ s.spot) :
    u.newArrayType? (s.move i) = t.newArrayType? i := by
  rw [Tree.newArrayType?, Tree.newArrayType?, s.firstWritten? h hspot, s.children h hspot,
    s.filter_move (fun _ => s.kept_child h hspot) fun _ hc =>
      congrArg (· == some TokenKind.lbracket) (s.tokenKind hc), List.length_map]

theorem unaryStep (h : s.Kept i) (hspot : i ≠ s.spot) :
    u.unaryStep (s.move i) = (t.unaryStep i).translate s.move := by
  rw [Tree.unaryStep, Tree.unaryStep, operator? h hspot, s.lastChild h hspot]
  split
  · cases t.lastChild? i <;> rfl
  · rw [TypeStep.translate_one]
  · rw [TypeStep.translate_one]
  · rw [TypeStep.translate_one]

theorem binaryStep (h : s.Kept i) (hspot : i ≠ s.spot) :
    u.binaryStep (s.move i) = (t.binaryStep i).translate s.move := by
  rw [Tree.binaryStep, Tree.binaryStep, operator? h hspot, s.firstChild h hspot,
    s.lastChild h hspot]
  split
  next => rw [TypeStep.translate_two]
  next => rw [TypeStep.translate_one]
  next => rw [TypeStep.translate_one]
  next => rw [TypeStep.translate_one]
  next => rw [TypeStep.translate_two]
  next => rw [TypeStep.translate_two]
  next => rw [TypeStep.translate_two]
  next =>
      split
      next => rfl
      next => rw [TypeStep.translate_two]
  next => rw [TypeStep.translate_two]

theorem ternaryStep (h : s.Kept i) (hspot : i ≠ s.spot) :
    u.ternaryStep (s.move i) = (t.ternaryStep i).translate s.move := by
  rw [Tree.ternaryStep, Tree.ternaryStep, s.children h hspot,
    s.filter_move (fun _ => s.kept_child h hspot) fun _ hc => s.isExpression hc]
  rcases (t.children i).filter t.isExpression with _ | ⟨_, _ | ⟨a, _ | ⟨b, _ | _⟩⟩⟩
  · rfl
  · rfl
  · rfl
  · exact (TypeStep.translate_two s.move (some a) (some b) branches).symm
  · rfl

end Sharing

end Tree

end DotCompletion
