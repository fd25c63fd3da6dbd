import Mathlib.Data.Finset.Card
import DotCompletion.Proofs.Tree.Flattening
import DotCompletion.Typing.Inference

/-!
# Types are found in finitely many steps

A type is found with the help of the types of operands, and of the expressions
that variables are initialized with. Operands lie below the expression. What a
scope tells one of its children comes from a sibling: from one in front of it or,
in a loop and in a `try` statement, from the one that stands for the whole scope
(`Tree.leader?`), which may also lie behind. So the children of a node are
settled from left to right, but for the leader, which comes first; its own
expressions are told nothing by the scope.

That leaves the fields of a class, which are known in the whole body. They give
their types outright unless they are declared with `var`.
-/

namespace DotCompletion

namespace TypeStep

theorem mem_one {a : Option Nat} {f : StaticType → Option StaticType} {e : Nat} :
    e ∈ (one a f).operands ↔ a = some e := Option.mem_toList

theorem mem_two {a b : Option Nat} {f : Option StaticType → Option StaticType → Option StaticType}
    {e : Nat} (h : e ∈ (two a b f).operands) : a = some e ∨ b = some e := by
  cases a with
  | none => cases h
  | some a =>
      cases b with
      | none => cases h
      | some b =>
          rcases List.mem_pair.mp h with rfl | rfl
          · exact .inl rfl
          · exact .inr rfl

theorem mem_ofBinding {b : Option Binding} {e : Nat} (h : e ∈ (ofBinding b).operands) :
    b = some (.ofExpression e) := by
  cases b with
  | none => cases h
  | some b =>
      cases b with
      | known type => cases h
      | unknown => cases h
      | ofExpression id =>
          cases mem_one.mp h
          rfl

end TypeStep

namespace Tree

open Node (Numbered)
open TypeStep (mem_one mem_two mem_ofBinding)

/-- The type of `id` is found with the help of that of `operand`. -/
def Asks (t : Tree) (operand id : Nat) : Prop := operand ∈ (t.step id).operands

/-- The child of a scope that tells all the others what it declares, wherever
they stand. -/
def leader? (t : Tree) (scope : Nat) : Option Nat :=
  match t.kind? scope with
  | some .forStmt => t.firstOfKind? [.localVarDecl] scope
  | some .tryStmt => t.firstOfKind? [.resourceList] scope
  | _ => none

/-- Some scope around the node tells it that a name stands for `e`. -/
def Sees (t : Tree) (id e : Nat) : Prop :=
  ∃ name, ∃ p ∈ (id :: t.ancestors id).zip (t.ancestors id),
    t.bindingIn? name p.1 p.2 = some (.ofExpression e)

/-- No field is declared with `var`. -/
def WritesFieldTypes (t : Tree) : Prop :=
  ∀ decl, t.isA .fieldDecl decl = true → t.infersTypes decl = false

/-- The types of a node and of all below it are found. -/
def Settled (t : Tree) (id : Nat) : Prop := ∀ j, j = id ∨ t.Below id j → Acc t.Asks j

variable {source : Bytes} {root n : Node} {id e : Nat} {above : List (Nat × Node)}

/-! ## What is asked -/

theorem mem_children_of_firstChild? (h : (ofNode source (some root)).firstChild? id = some e) :
    e ∈ (ofNode source (some root)).children id := by
  rw [← head?_children] at h
  exact List.mem_of_head? h

theorem mem_children_of_lastChild? (h : (ofNode source (some root)).lastChild? id = some e) :
    e ∈ (ofNode source (some root)).children id := by
  rw [← getLast?_children] at h
  exact List.mem_of_getLast? h

theorem mem_children_of_firstOfKind? {t : Tree} {kinds : List NodeKind}
    (h : t.firstOfKind? kinds id = some e) : e ∈ t.children id :=
  List.mem_of_find?_eq_some h

theorem mem_children_of_leader? {t : Tree} (h : t.leader? id = some e) : e ∈ t.children id := by
  unfold leader? at h
  split at h
  next => exact mem_children_of_firstOfKind? h
  next => exact mem_children_of_firstOfKind? h
  next => cases h

theorem mem_children_of_mem_two {f : Option StaticType → Option StaticType → Option StaticType}
    (h : e ∈ (TypeStep.two ((ofNode source (some root)).firstChild? id)
      ((ofNode source (some root)).lastChild? id) f).operands) :
    e ∈ (ofNode source (some root)).children id := by
  rcases mem_two h with h | h
  · exact mem_children_of_firstChild? h
  · exact mem_children_of_lastChild? h

theorem mem_unaryStep (h : e ∈ ((ofNode source (some root)).unaryStep id).operands) :
    e ∈ (ofNode source (some root)).children id := by
  apply mem_children_of_lastChild?
  unfold unaryStep at h
  split at h
  · exact Option.mem_toList.mp h
  · exact mem_one.mp h
  · exact mem_one.mp h
  · exact mem_one.mp h

theorem mem_binaryStep (h : e ∈ ((ofNode source (some root)).binaryStep id).operands) :
    e ∈ (ofNode source (some root)).children id := by
  unfold binaryStep at h
  simp only at h
  split at h
  · exact mem_children_of_mem_two h
  · exact mem_children_of_firstChild? (mem_one.mp h)
  · exact mem_children_of_firstChild? (mem_one.mp h)
  · exact mem_children_of_firstChild? (mem_one.mp h)
  · exact mem_children_of_mem_two h
  · exact mem_children_of_mem_two h
  · exact mem_children_of_mem_two h
  · split at h
    · cases h
    · exact mem_children_of_mem_two h
  · exact mem_children_of_mem_two h

theorem mem_ternaryStep {t : Tree} (h : e ∈ (t.ternaryStep id).operands) : e ∈ t.children id := by
  unfold ternaryStep at h
  split at h
  next a b hbranches =>
      refine List.mem_of_mem_filter (p := t.isExpression) ?_
      rw [hbranches]
      rcases mem_two h with h | h
      · simp [Option.some.inj h]
      · simp [Option.some.inj h]
  next => cases h

theorem mem_referenceStep (h : e ∈ ((ofNode source (some root)).referenceStep id).operands) :
    e ∈ (ofNode source (some root)).children id ∨
      ∃ name, (ofNode source (some root)).nameBinding? id name = some (.ofExpression e) ∨
        (ofNode source (some root)).ownFieldBinding? id name = some (.ofExpression e) := by
  unfold referenceStep at h
  split at h
  next hqualifier _ =>
      simp only at h
      split at h
      · exact .inr ⟨_, .inl (mem_ofBinding h)⟩
      · split at h
        · exact .inr ⟨_, .inr (mem_ofBinding h)⟩
        · split at h
          · cases mem_one.mp h
            exact .inl (mem_children_of_firstChild? hqualifier)
          · cases h
  next => cases h

/-- What is asked for is a child, or the initializer of what a name means. -/
theorem Asks.cases (h : (ofNode source (some root)).Asks e id) :
    e ∈ (ofNode source (some root)).children id ∨
      ∃ name, (ofNode source (some root)).nameBinding? id name = some (.ofExpression e) ∨
        (ofNode source (some root)).ownFieldBinding? id name = some (.ofExpression e) := by
  unfold Asks step at h
  split at h
  next => cases h
  next => exact .inl (mem_children_of_firstOfKind? (mem_one.mp h))
  next => cases h
  next => cases h
  next => exact .inl (mem_unaryStep h)
  next => exact .inl (mem_children_of_firstChild? (mem_one.mp h))
  next => exact .inl (mem_children_of_firstChild? (mem_one.mp h))
  next => exact .inl (mem_binaryStep h)
  next => cases h
  next => exact .inl (mem_ternaryStep h)
  next => cases h
  next => exact .inl (mem_children_of_firstChild? (mem_one.mp h))
  next => cases h
  next => cases h
  next => exact mem_referenceStep h
  next => cases h

/-! ## Where the initializers stand -/

/-- Below a node as the child of a child. -/
theorem below_of_mem_children {t : Tree} {c : Nat} (hc : c ∈ t.children id)
    (he : e ∈ t.children c) : t.Below id e :=
  .tail (.single hc) he

/-- Only `var` leaves a type to an initializer, and that stands in the declaration. -/
theorem variableBinding?_ofExpression {decl : Nat} {name : Bytes}
    (h : (ofNode source (some root)).variableBinding? decl name = some (.ofExpression e)) :
    (ofNode source (some root)).infersTypes decl = true ∧
      (ofNode source (some root)).Below decl e := by
  obtain ⟨v, hv, hbinding⟩ := Option.map_eq_some_iff.mp h
  split at hbinding
  next hinfers =>
      split at hbinding
      next init hinit =>
          cases hbinding
          obtain ⟨hlast, -⟩ := Option.filter_eq_some_iff.mp hinit
          exact ⟨hinfers, below_of_mem_children (List.mem_of_find?_eq_some hv)
            (mem_children_of_lastChild? hlast)⟩
      next => cases hbinding
  next => split at hbinding <;> cases hbinding

/-- Parameters never leave their types to an expression, nor do the variables of tests. -/
theorem parameterBinding?_ne {t : Tree} {param : Nat} {name : Bytes} :
    t.parameterBinding? param name ≠ some (.ofExpression e) := by
  intro h
  unfold parameterBinding? at h
  simp only at h
  split at h
  next =>
      split at h
      next =>
          split at h
          next => split at h <;> cases h
          next => cases h
      next => cases h
  next => cases h

theorem patternBinding?_ne {t : Tree} {name : Bytes} :
    t.patternBinding? id name ≠ some (.ofExpression e) := by
  intro h
  obtain ⟨test, _, h⟩ := List.exists_of_findSome?_eq_some h
  split at h
  next =>
      split at h
      next =>
          split at h
          next =>
              obtain ⟨_, _, h⟩ := Option.map_eq_some_iff.mp h
              cases h
          next => cases h
      next => cases h
  next => cases h

theorem listedBinding?_ne {t : Tree} {params : Option Nat} {name : Bytes} :
    t.listedBinding? params name ≠ some (.ofExpression e) := by
  intro h
  obtain ⟨param, _, h⟩ := List.exists_of_findSome?_eq_some h
  exact parameterBinding?_ne h

/-- Fields that are not declared with `var` give their types outright. -/
theorem fieldBinding?_ne
    (hfields : (ofNode source (some root)).WritesFieldTypes) {name : Bytes} :
    (ofNode source (some root)).fieldBinding? id name ≠ some (.ofExpression e) := by
  intro h
  rw [fieldBinding?, Option.orElse_eq_orElse, Option.orElse_eq_or, Option.or_eq_some_iff] at h
  rcases h with h | ⟨-, h⟩
  · obtain ⟨decl, hdecl, h⟩ := List.exists_of_findSome?_eq_some h
    have hnot := hfields decl (List.mem_filter.mp hdecl).2
    rw [(variableBinding?_ofExpression h).1] at hnot
    cases hnot
  · obtain ⟨record, -, h⟩ := Option.bind_eq_some_iff.mp h
    exact listedBinding?_ne h

theorem below_of_siblingBinding? {sibling : Nat} {name : Bytes}
    (h : (ofNode source (some root)).siblingBinding? sibling name = some (.ofExpression e)) :
    (ofNode source (some root)).Below sibling e := by
  unfold siblingBinding? at h
  split at h
  next => exact (variableBinding?_ofExpression h).2
  next => exact absurd h parameterBinding?_ne
  next => cases h

theorem lambdaBinding?_ne {t : Tree} {param : Nat} {name : Bytes} :
    t.lambdaBinding? param name ≠ some (.ofExpression e) := by
  intro h
  unfold lambdaBinding? at h
  split at h
  next => split at h <;> cases h
  next => exact parameterBinding?_ne h
  next => cases h

/-- What a scope tells its children stands below the leader, if there is one, and else below a
sibling in front. -/
theorem bindingIn?_ofExpression
    (hfields : (ofNode source (some root)).WritesFieldTypes) {name : Bytes} {child scope : Nat}
    (h : (ofNode source (some root)).bindingIn? name child scope = some (.ofExpression e)) :
    ∃ sibling, (ofNode source (some root)).Below sibling e ∧
      (((ofNode source (some root)).leader? scope = none ∧
          sibling ∈ (ofNode source (some root)).before child) ∨
        ((ofNode source (some root)).leader? scope = some sibling ∧ sibling ≠ child)) := by
  unfold bindingIn? at h
  split at h
  -- blocks, cases and resources
  case h_1 hkind | h_2 hkind | h_3 hkind =>
      obtain ⟨s, hs, hbinding⟩ := List.exists_of_findSome?_eq_some h
      exact ⟨s, below_of_siblingBinding? hbinding, .inl ⟨by simp [leader?, hkind], hs⟩⟩
  -- loops
  case h_4 hkind =>
      obtain ⟨decl, hdecl, hbinding⟩ := Option.bind_eq_some_iff.mp h
      obtain ⟨hfirst, hne⟩ := Option.filter_eq_some_iff.mp hdecl
      exact ⟨decl, (variableBinding?_ofExpression hbinding).2,
        .inr ⟨by simpa [leader?, hkind] using hfirst, by simpa using hne⟩⟩
  -- `try` with resources
  case h_5 hkind =>
      obtain ⟨resources, hresources, h⟩ := Option.bind_eq_some_iff.mp h
      obtain ⟨hfirst, hne⟩ := Option.filter_eq_some_iff.mp hresources
      obtain ⟨decl, hdecl, hbinding⟩ := List.exists_of_findSome?_eq_some h
      exact ⟨resources, .head (List.mem_filter.mp hdecl).1 (variableBinding?_ofExpression hbinding).2,
        .inr ⟨by simpa [leader?, hkind] using hfirst, by simpa using hne⟩⟩
  -- all others tell types outright
  case h_6 | h_7 =>
      obtain ⟨param, -, hbinding⟩ := Option.bind_eq_some_iff.mp h
      exact absurd hbinding parameterBinding?_ne
  case h_8 | h_9 | h_10 => exact absurd h listedBinding?_ne
  case h_11 =>
      obtain ⟨param, -, hbinding⟩ := List.exists_of_findSome?_eq_some h
      exact absurd hbinding lambdaBinding?_ne
  case h_12 | h_13 | h_14 | h_15 =>
      obtain ⟨s, -, hbinding⟩ := List.exists_of_findSome?_eq_some h
      exact absurd hbinding patternBinding?_ne
  case h_16 => exact absurd h (fieldBinding?_ne hfields)
  case h_17 => cases h

/-! ## Nodes are settled from the inside out -/

theorem sees_child {c : Nat} (hc : c ∈ (ofNode source (some root)).children id)
    (h : (ofNode source (some root)).Sees c e) :
    (∃ name, (ofNode source (some root)).bindingIn? name c id = some (.ofExpression e)) ∨
      (ofNode source (some root)).Sees id e := by
  obtain ⟨name, p, hp, hbinding⟩ := h
  rw [ancestors_child hc, List.zip_cons_cons, List.mem_cons] at hp
  rcases hp with rfl | hp
  · exact .inl ⟨name, hbinding⟩
  · exact .inr ⟨name, p, hp, hbinding⟩

theorem sees_of_nameBinding? {t : Tree} {name : Bytes}
    (h : t.nameBinding? id name = some (.ofExpression e)) : t.Sees id e := by
  obtain ⟨p, hp, hbinding⟩ := List.exists_of_findSome?_eq_some h
  exact ⟨name, p, hp, hbinding⟩

theorem settled_of_children {t : Tree} (hself : Acc t.Asks id)
    (hchildren : ∀ c ∈ t.children id, t.Settled c) : t.Settled id := by
  rintro j (rfl | hj)
  · exact hself
  · obtain ⟨c, hc, hj⟩ := Relation.TransGen.head'_iff.mp hj
    apply hchildren c hc
    rcases Relation.reflTransGen_iff_eq_or_transGen.mp hj with rfl | hj
    · exact .inl rfl
    · exact .inr hj

/-- The children are settled if each of them is as soon as what its scope tells it is found: first
the leader, and then all from left to right. -/
theorem settled_of_told
    (hfields : (ofNode source (some root)).WritesFieldTypes)
    (hchild : ∀ c ∈ (ofNode source (some root)).children id,
      (∀ name e, (ofNode source (some root)).bindingIn? name c id = some (.ofExpression e) →
        Acc (ofNode source (some root)).Asks e) → (ofNode source (some root)).Settled c) :
    ∀ c ∈ (ofNode source (some root)).children id, (ofNode source (some root)).Settled c := by
  have hleader : ∀ l, (ofNode source (some root)).leader? id = some l →
      (ofNode source (some root)).Settled l := by
    intro l hl
    apply hchild l (mem_children_of_leader? hl)
    intro name e hbinding
    obtain ⟨_, _, ⟨hnone, _⟩ | ⟨hsome, hne⟩⟩ := bindingIn?_ofExpression hfields hbinding
    · cases hnone.symm.trans hl
    · cases hsome.symm.trans hl
      exact absurd rfl hne
  have hfront : ∀ front back, (ofNode source (some root)).children id = front ++ back →
      ∀ c ∈ front, (ofNode source (some root)).Settled c := by
    intro front
    induction front using List.reverseRecOn with
    | nil => exact fun _ _ c hc => absurd hc List.not_mem_nil
    | append_singleton front c ih =>
        intro back hsplit
        rw [List.append_assoc, List.singleton_append] at hsplit
        have hbefore := ih (c :: back) hsplit
        refine List.forall_mem_append.mpr ⟨hbefore, List.forall_mem_singleton.mpr ?_⟩
        apply hchild c (by simp [hsplit])
        intro name e hbinding
        obtain ⟨sibling, hbelow, ⟨_, hmem⟩ | ⟨hsome, _⟩⟩ := bindingIn?_ofExpression hfields hbinding
        · rw [before_of_children hsplit, List.mem_reverse] at hmem
          exact hbefore sibling hmem e (.inr hbelow)
        · exact hleader sibling hsome e (.inr hbelow)
  exact hfront _ [] (List.append_nil _).symm

/-- A node is settled with all below it if what the scopes around it tell is found. -/
theorem settled_of_sees
    (hfields : (ofNode source (some root)).WritesFieldTypes)
    (h : Numbered root id n above)
    (hsees : ∀ e, (ofNode source (some root)).Sees id e → Acc (ofNode source (some root)).Asks e) :
    (ofNode source (some root)).Settled id := by
  induction n using Node.induct generalizing id above with
  | step n ih =>
      have hchildren : ∀ c ∈ (ofNode source (some root)).children id,
          (ofNode source (some root)).Settled c := by
        apply settled_of_told hfields
        intro c hc htold
        obtain ⟨front, m, back, hsplit, -, hm⟩ := exists_child h hc
        apply ih m (by simp [hsplit]) hm
        intro e he
        rcases sees_child hc he with ⟨name, hbinding⟩ | he
        · exact htold name e hbinding
        · exact hsees e he
      refine settled_of_children (.intro id fun e he => ?_) hchildren
      rcases Asks.cases he with hc | ⟨name, hname | hfield⟩
      · exact hchildren e hc e (.inl rfl)
      · exact hsees e (sees_of_nameBinding? hname)
      · obtain ⟨body, -, hfield⟩ := Option.bind_eq_some_iff.mp hfield
        exact absurd hfield (fieldBinding?_ne hfields)

theorem operands_eq_nil {t : Tree} (h : t.kind? id = none) : (t.step id).operands = [] := by
  rw [step, h]
  rfl

theorem asks_wellFounded
    (hfields : (ofNode source (some root)).WritesFieldTypes) :
    WellFounded (ofNode source (some root)).Asks := by
  have hroot : (ofNode source (some root)).Settled 0 := by
    apply settled_of_sees hfields .root
    rintro e ⟨name, p, hp, -⟩
    rw [ancestors_eq .root] at hp
    cases hp
  refine ⟨fun id => ?_⟩
  obtain ⟨n, above, hn⟩ | houtside := numbered_or_outside root id
  · rcases Nat.eq_zero_or_pos id with rfl | hpos
    · exact hroot 0 (.inl rfl)
    · apply hroot id
      rw [below_iff_isAncestor, isAncestor_iff, Numbered.root.sizeAt]
      have hlt := hn.lt_size
      omega
  · refine .intro id fun e he => ?_
    rw [Asks, operands_eq_nil (by rw [kind?, slot?_eq_none houtside]; rfl)] at he
    cases he

/-! ## A depth that is enough -/

theorem Asks.lt_size
    (hfields : (ofNode source (some root)).WritesFieldTypes)
    (h : (ofNode source (some root)).Asks e id) : e < (ofNode source (some root)).size := by
  have hbelow : ∃ outer, (ofNode source (some root)).Below outer e := by
    rcases h.cases with hc | ⟨name, hname | hfield⟩
    · exact ⟨id, .single hc⟩
    · obtain ⟨_, p, -, hbinding⟩ := sees_of_nameBinding? hname
      obtain ⟨sibling, hbelow, -⟩ := bindingIn?_ofExpression hfields hbinding
      exact ⟨sibling, hbelow⟩
    · obtain ⟨body, -, hfield⟩ := Option.bind_eq_some_iff.mp hfield
      exact absurd hfield (fieldBinding?_ne hfields)
  obtain ⟨outer, hbelow⟩ := hbelow
  rw [below_iff_isAncestor, isAncestor_iff] at hbelow
  have hle := root.add_sizeAt_le outer
  rw [size_ofNode]
  omega

section Depth

variable {t : Tree} {nodes : Finset Nat} {depth : Nat}

/-- Those of some nodes whose types are found within a depth. -/
def found (t : Tree) (nodes : Finset Nat) (depth : Nat) : Finset Nat :=
  nodes.filter fun id => (t.infer depth id).isSome

theorem mem_found : id ∈ t.found nodes depth ↔ id ∈ nodes ∧ (t.infer depth id).isSome := by
  rw [found, Finset.mem_filter]

theorem mapM_isSome_iff {α β : Type} {f : α → Option β} {l : List α} :
    (l.mapM f).isSome ↔ ∀ a ∈ l, (f a).isSome := by
  induction l with
  | nil => simp
  | cons a l ih =>
      rw [List.mapM_cons, List.forall_mem_cons, ← ih]
      cases f a with
      | none => simp
      | some b => cases l.mapM f <;> simp

theorem infer_isSome_iff (id : Nat) : (t.infer (depth + 1) id).isSome ↔
    ∀ e ∈ (t.step id).operands, (t.infer depth e).isSome := by
  rw [infer, Option.isSome_map, mapM_isSome_iff]

/-- What is found stays the same when more steps are allowed. -/
theorem infer_succ {type : Option StaticType} (h : t.infer depth id = some type) :
    t.infer (depth + 1) id = some type := by
  induction depth generalizing id type with
  | zero => cases h
  | succ depth ih =>
      obtain ⟨types, htypes, rfl⟩ := Option.map_eq_some_iff.mp h
      have hmore := mapM_eq_some_iff.mpr ((mapM_eq_some_iff.mp htypes).imp fun _ _ => ih)
      rw [infer, hmore, Option.map_some]

theorem found_subset (t : Tree) (nodes : Finset Nat) (depth : Nat) :
    t.found nodes depth ⊆ t.found nodes (depth + 1) := by
  intro id hid
  rw [mem_found, Option.isSome_iff_exists] at hid
  obtain ⟨hmem, type, htype⟩ := hid
  exact mem_found.mpr ⟨hmem, by rw [infer_succ htype]; rfl⟩

/-- If one more step finds nothing new, then all is found. -/
theorem found_of_stable (hwf : WellFounded t.Asks)
    (hclosed : ∀ {e id}, t.Asks e id → id ∈ nodes → e ∈ nodes)
    (h : t.found nodes (depth + 1) = t.found nodes depth) : t.found nodes depth = nodes := by
  have hall : ∀ id, id ∈ nodes → id ∈ t.found nodes depth := by
    intro id
    induction id using hwf.induction with
    | _ id ih =>
        intro hmem
        rw [← h, mem_found, infer_isSome_iff]
        exact ⟨hmem, fun e he => (mem_found.mp (ih e he (hclosed he hmem))).2⟩
  ext id
  exact ⟨fun hid => (mem_found.mp hid).1, hall id⟩

/-- Each step finds something new as long as something is left. -/
theorem found_or_card (hwf : WellFounded t.Asks)
    (hclosed : ∀ {e id}, t.Asks e id → id ∈ nodes → e ∈ nodes) (depth : Nat) :
    t.found nodes depth = nodes ∨ depth ≤ (t.found nodes depth).card := by
  induction depth with
  | zero => exact .inr (Nat.zero_le _)
  | succ depth ih =>
      by_cases hstable : t.found nodes (depth + 1) = t.found nodes depth
      · left
        rw [hstable, found_of_stable hwf hclosed hstable]
      · have hgrowth := Finset.card_lt_card
          ((found_subset t nodes depth).ssubset_of_ne (Ne.symm hstable))
        rcases ih with hall | hle
        · have hmost := Finset.card_le_card (Finset.filter_subset
            (fun id => (t.infer (depth + 1) id).isSome) nodes)
          rw [hall] at hgrowth
          exact absurd hmost (Nat.not_le_of_lt hgrowth)
        · exact .inr (by omega)

/-- Nodes that ask only for each other are settled in as many steps as there are of them. -/
theorem infer_card_isSome (hwf : WellFounded t.Asks)
    (hclosed : ∀ {e id}, t.Asks e id → id ∈ nodes → e ∈ nodes) (h : id ∈ nodes) :
    (t.infer nodes.card id).isSome := by
  have hall : t.found nodes nodes.card = nodes := by
    rcases found_or_card hwf hclosed nodes.card with hall | hle
    · exact hall
    · exact Finset.eq_of_subset_of_card_le (Finset.filter_subset _ _) hle
  rw [← hall, mem_found] at h
  exact h.2

theorem infer_size_isSome (hwf : WellFounded t.Asks)
    (hrange : ∀ {e id}, t.Asks e id → e < t.size) (h : id < t.size) :
    (t.infer t.size id).isSome := by
  have hfound := infer_card_isSome hwf
    (fun hasks _ => Finset.mem_range.mpr (hrange hasks)) (Finset.mem_range.mpr h)
  rwa [Finset.card_range] at hfound

/-- The type of an expression follows from those of its operands. -/
theorem infer_eq (hwf : WellFounded t.Asks)
    (hrange : ∀ {e id}, t.Asks e id → e < t.size) (id : Nat) :
    t.infer (t.size + 1) id =
      some ((t.step id).combine ((t.step id).operands.map t.typeOf)) := by
  have hoperands : (t.step id).operands.mapM (t.infer t.size) =
      some ((t.step id).operands.map t.typeOf) := by
    rw [mapM_eq_some_iff, List.forall₂_map_right_iff, List.forall₂_same]
    intro e he
    obtain ⟨type, htype⟩ := Option.isSome_iff_exists.mp (infer_size_isSome hwf hrange (hrange he))
    rw [typeOf, infer_succ htype, htype]
    rfl
  rw [infer, hoperands, Option.map_some]

end Depth

/-- A field that is initialized with itself has a type to be found, and asking for it ends only if
it is written down. -/
example : (Tree.parse .compilationUnit (Bytes.ofString "class A { var x = x; }")).Asks 12 12 ∧
    ¬(Tree.parse .compilationUnit (Bytes.ofString "class A { int x = x; }")).Asks 12 12 := by
  unfold Asks
  decide +kernel

end Tree

/-- Asking for types ends wherever it begins, unless a field is declared with `var`: there is no
endless chain of expressions each of which is asked for on the way to the type of the one before,
`Tree.infer` comes to an answer for every number, and the answer is what the step of the expression
makes of the types of its operands. -/
theorem Entry.typeOf_ends (entry : Entry) (source : Bytes)
    (hfields : ∀ decl < (Tree.parse entry source).size,
      (Tree.parse entry source).isA .fieldDecl decl = true →
        (Tree.parse entry source).infersTypes decl = false) :
    WellFounded (Tree.parse entry source).Asks ∧
      ∀ id, ((Tree.parse entry source).infer ((Tree.parse entry source).size + 1) id).isSome ∧
        (Tree.parse entry source).typeOf id = ((Tree.parse entry source).step id).combine
          (((Tree.parse entry source).step id).operands.map (Tree.parse entry source).typeOf) := by
  rw [Tree.parse] at hfields ⊢
  generalize entry.parse source = root at hfields ⊢
  have hfields : (Tree.ofNode source (some root)).WritesFieldTypes := by
    intro decl hdecl
    obtain ⟨n, above, hn, -⟩ := Tree.exists_of_hasKind hdecl
    have hlt := hn.lt_size
    exact hfields decl (by rwa [Tree.size_ofNode]) hdecl
  have hwf := Tree.asks_wellFounded hfields
  refine ⟨hwf, fun id => ?_⟩
  have htype := Tree.infer_eq hwf (fun h => Tree.Asks.lt_size hfields h) id
  rw [Tree.typeOf, htype]
  exact ⟨rfl, rfl⟩

/-- The condition of the loop asks for the type of a variable that is declared behind it, and that
for the type of a field. -/
theorem Entry.typeOf_ends_behind :
    39 ∈ ((Tree.parse .compilationUnit (Bytes.ofString
      "class A {int f; void m() {for (; y > 0;) var y = f;}}")).step 26).operands ∧
    (Tree.parse .compilationUnit (Bytes.ofString
      "class A {int f; void m() {for (; y > 0;) var y = f;}}")).size = 45 ∧
    WellFounded (Tree.parse .compilationUnit (Bytes.ofString
      "class A {int f; void m() {for (; y > 0;) var y = f;}}")).Asks ∧
    ((Tree.parse .compilationUnit (Bytes.ofString
      "class A {int f; void m() {for (; y > 0;) var y = f;}}")).infer 46 26).isSome := by
  have hfacts : 39 ∈ ((Tree.parse .compilationUnit (Bytes.ofString
      "class A {int f; void m() {for (; y > 0;) var y = f;}}")).step 26).operands ∧
    (Tree.parse .compilationUnit (Bytes.ofString
      "class A {int f; void m() {for (; y > 0;) var y = f;}}")).size = 45 ∧
    ∀ decl < (Tree.parse .compilationUnit (Bytes.ofString
      "class A {int f; void m() {for (; y > 0;) var y = f;}}")).size,
      (Tree.parse .compilationUnit (Bytes.ofString
        "class A {int f; void m() {for (; y > 0;) var y = f;}}")).isA .fieldDecl decl = true →
      (Tree.parse .compilationUnit (Bytes.ofString
        "class A {int f; void m() {for (; y > 0;) var y = f;}}")).infersTypes decl = false := by
    decide +kernel
  obtain ⟨hoperand, hsize, hfields⟩ := hfacts
  obtain ⟨hwf, hall⟩ := Entry.typeOf_ends .compilationUnit (Bytes.ofString
    "class A {int f; void m() {for (; y > 0;) var y = f;}}") hfields
  have hfound := (hall 26).1
  rw [hsize] at hfound
  exact ⟨hoperand, hsize, hwf, hfound⟩

end DotCompletion
