import DotCompletion.Proofs.Typing.Sharing

/-!
# Sheltered expressions have the same types

An expression of a part that two trees share has the same type in both if no scope around
it tells it anything that depends on the rest. Such an expression only asks for the types
of others that are sheltered as well (`Sharing.Sheltered.asks`): its operands, which stand
below it, and initializers, which stand where the scopes of the expression look.
-/

namespace DotCompletion.Tree

section Scopes

open Node (Numbered)

variable {source : Bytes} {root n : Node} {id b c : Nat} {above : List (Nat × Node)}

/-- What stands in front of a node in front of another stands in front of that one too. -/
theorem before_of_before {inner outer : List Nat}
    (h : (ofNode source (some root)).before c = inner ++ b :: outer) :
    (ofNode source (some root)).before b = outer := by
  have hparent : ∃ id, c ∈ (ofNode source (some root)).children id := by
    cases hprevious : (ofNode source (some root)).previous? c with
    | none =>
        rw [Tree.before, hprevious, follow_none] at h
        cases (List.append_eq_nil_iff.mp h.symm).2
    | some a =>
        obtain ⟨id, front, back, hchildren⟩ := previous?_eq_some_iff.mp hprevious
        exact ⟨id, by simp [hchildren]⟩
  obtain ⟨id, hc⟩ := hparent
  obtain ⟨front, back, hchildren⟩ := List.append_of_mem hc
  rw [before_of_children hchildren, List.reverse_eq_iff] at h
  rw [h, List.reverse_append, List.reverse_cons, List.append_assoc, List.append_assoc] at hchildren
  rw [before_of_children hchildren, List.reverse_reverse]

theorem mem_children_of_mem_before (hc : c ∈ (ofNode source (some root)).children id)
    (hb : b ∈ (ofNode source (some root)).before c) :
    b ∈ (ofNode source (some root)).children id := by
  obtain ⟨front, back, hchildren⟩ := List.append_of_mem hc
  rw [before_of_children hchildren, List.mem_reverse] at hb
  rw [hchildren]
  exact List.mem_append_left _ hb

/-- A scope is the parent of the child it is asked by, and the scopes around it are scopes of the
node. -/
theorem scopes_of_scope (h : Numbered root id n above) {p : Nat × Nat}
    (hp : p ∈ (id :: (ofNode source (some root)).ancestors id).zip
      ((ofNode source (some root)).ancestors id)) :
    p.1 ∈ (ofNode source (some root)).children p.2 ∧
      (p.2 :: (ofNode source (some root)).ancestors p.2).zip
          ((ofNode source (some root)).ancestors p.2) ⊆
        (id :: (ofNode source (some root)).ancestors id).zip
          ((ofNode source (some root)).ancestors id) := by
  induction h with
  | root =>
      rw [ancestors_eq .root] at hp
      cases hp
  | @child id n m above front back hparent hsplit ih =>
      have hc := @mem_children source _ _ _ _ _ _ (.child hparent hsplit)
      rw [ancestors_child hc, List.zip_cons_cons] at hp ⊢
      rcases List.mem_cons.mp hp with rfl | hp
      · exact ⟨hc, List.subset_cons_self _ _⟩
      · obtain ⟨hmem, hsubset⟩ := ih hp
        exact ⟨hmem, List.Subset.trans hsubset (List.subset_cons_self _ _)⟩

end Scopes

namespace Sharing

/-! ## Steps -/

section Steps

variable {t u : Tree} {s : Sharing t u} {i : Nat}

variable (s) in
/-- A node that belongs to the part as a whole, and is told nothing by the scopes around it
that depends on the other tree. -/
structure Sheltered (i : Nat) : Prop where
  whole : s.Whole i
  told : ∀ p ∈ (i :: t.ancestors i).zip (t.ancestors i), s.Told p.1 p.2

theorem Sheltered.nameBinding? (h : s.Sheltered i) (name : Bytes) :
    u.nameBinding? (s.move i) name =
      (t.nameBinding? i name).map (Binding.translate s.move) := by
  have hkept := s.kept h.whole
  have hpairs : (s.move i :: u.ancestors (s.move i)).zip (u.ancestors (s.move i)) =
      ((i :: t.ancestors i).zip (t.ancestors i)).map (Prod.map s.move s.move) := by
    rw [s.ancestors hkept, ← List.map_cons, List.zip_map]
  change List.findSome? _ ((s.move i :: u.ancestors (s.move i)).zip _) = _
  rw [hpairs]
  refine s.findSome?_move fun p hp => ?_
  have hmem := List.of_mem_zip hp
  have hchild : s.Kept p.1 := by
    rcases List.mem_cons.mp hmem.1 with heq | hmem
    · exact heq ▸ hkept
    · exact s.kept_ancestor hkept hmem
  exact bindingIn? (h.told p hp) hchild (s.kept_ancestor hkept hmem.2)

theorem Sheltered.referenceStep (h : s.Sheltered i) :
    u.referenceStep (s.move i) = (t.referenceStep i).translate s.move := by
  have hkept := s.kept h.whole
  have hspot := s.ne_spot h.whole
  rw [Tree.referenceStep, Tree.referenceStep, s.firstChild hkept hspot, s.lastChild hkept hspot,
    s.optionFilter_move (fun _ => s.kept_lastChild hkept hspot) fun _ hc => s.isA hc .identifier]
  cases hfirst : t.firstChild? i with
  | none => rfl
  | some qualifier =>
      cases hlast : (t.lastChild? i).filter (t.isA .identifier) with
      | none => rfl
      | some last =>
          have hqualifier := s.kept_firstChild hkept hspot hfirst
          have hname : u.tokenText (some (s.move last)) = t.tokenText (some last) := by
            obtain ⟨hlast, -⟩ := Option.filter_eq_some_iff.mp hlast
            rw [← Option.map_some, s.tokenText fun c hc => ?_]
            cases hc
            exact s.kept_lastChild hkept hspot hlast
          have hthis : (u.isA .thisExpr (s.move qualifier) &&
                (u.children (s.move qualifier)).isEmpty) =
              (t.isA .thisExpr qualifier && (t.children qualifier).isEmpty) := by
            rw [s.isA hqualifier]
            cases hkind : t.isA .thisExpr qualifier with
            | false => rfl
            | true =>
                rw [s.children hqualifier (s.ne_spot_of_isA hkind (by decide)), List.isEmpty_map]
          simp only [Option.map_some]
          rw [s.isA hqualifier, hthis, hname, h.nameBinding?, ownFieldBinding? hkept,
            ← TypeStep.translate_ofBinding, ← TypeStep.translate_ofBinding]
          split
          · rfl
          · split
            · rfl
            · split
              · exact (TypeStep.translate_one s.move (some qualifier) _).symm
              · rfl

/-- The step to the type of a sheltered expression is the same in both trees. -/
theorem Sheltered.step (h : s.Sheltered i) :
    u.step (s.move i) = (t.step i).translate s.move := by
  have hkept := s.kept h.whole
  have hspot := s.ne_spot h.whole
  rw [Tree.step, Tree.step, s.kind hkept]
  split
  next => rw [TypeStep.translate_always, literal hkept]
  next => rw [TypeStep.translate_one, s.firstOfKind? hkept hspot]
  next => rw [TypeStep.translate_always, s.firstWritten? hkept hspot]
  next => rw [TypeStep.translate_always, s.firstWritten? hkept hspot]
  next => exact unaryStep hkept hspot
  next => rw [TypeStep.translate_one, s.firstChild hkept hspot]
  next => rw [TypeStep.translate_one, s.firstChild hkept hspot]
  next => exact binaryStep hkept hspot
  next => rfl
  next => exact ternaryStep hkept hspot
  next => rw [TypeStep.translate_always, newArrayType? hkept hspot]
  next => rw [TypeStep.translate_one, s.firstChild hkept hspot]
  next =>
      rw [TypeStep.translate_always, s.firstChild hkept hspot]
      cases hfirst : t.firstChild? i with
      | none => exact congrArg TypeStep.always (enclosingClass? hkept)
      | some qualifier =>
          have hwhole := s.whole_child h.whole (s.mem_firstChild hfirst)
          simp only [Option.map_some, s.text hwhole]
  next => rfl
  next => exact h.referenceStep
  next => rfl

theorem mapM_congr {α β : Type} {f g : α → Option β} {l : List α} (h : ∀ a ∈ l, f a = g a) :
    l.mapM f = l.mapM g := by
  induction l with
  | nil => rfl
  | cons a l ih =>
      obtain ⟨ha, hl⟩ := List.forall_mem_cons.mp h
      rw [List.mapM_cons, List.mapM_cons, ha, ih hl]

/-- The types of sheltered expressions are found in as many steps as before, and they are the
same. -/
theorem infer (hclosed : ∀ {e i}, t.Asks e i → s.Sheltered i → s.Sheltered e)
    (h : s.Sheltered i) (depth : Nat) : u.infer depth (s.move i) = t.infer depth i := by
  induction depth generalizing i with
  | zero => rfl
  | succ depth ih =>
      have hoperands : ((t.step i).operands.map s.move).mapM (u.infer depth) =
          (t.step i).operands.mapM (t.infer depth) := by
        rw [List.mapM_map]
        exact mapM_congr fun e he => ih (hclosed he h)
      rw [Tree.infer, Tree.infer, h.step]
      exact congrArg (Option.map (t.step i).combine) hoperands

end Steps

/-! ## What sheltered expressions ask for -/

section Asking

open Node (Numbered)

variable {source source' : Bytes} {root root' n : Node} {id b c e : Nat}
  {above : List (Nat × Node)}

variable {s : Sharing (ofNode source (some root)) (ofNode source' (some root'))}

theorem Ahead.of_mem (h : s.Ahead c) (hb : b ∈ (ofNode source (some root)).before c) :
    s.Ahead b := by
  obtain ⟨inner, outer, hbefore⟩ := List.append_of_mem hb
  have houter := before_of_before hbefore
  have hmoved := h.before
  rw [hbefore, List.map_append, List.map_cons] at hmoved
  refine ⟨?_, fun a ha => h.whole a ?_⟩
  · rw [houter, before_of_before hmoved]
  · rw [houter] at ha
    rw [hbefore]
    exact List.mem_append_right _ (List.mem_cons_of_mem _ ha)

theorem Sheltered.child (h : s.Sheltered id) (hc : c ∈ (ofNode source (some root)).children id) :
    s.Sheltered c := by
  have hkept := s.kept h.whole
  have hspot := s.ne_spot h.whole
  refine ⟨s.whole_child h.whole hc, ?_⟩
  rw [ancestors_child hc, List.zip_cons_cons, List.forall_mem_cons]
  refine ⟨.ahead (fun l hl => s.whole_child h.whole (mem_children_of_leader? hl)) ?_, h.told⟩
  exact ⟨s.before hkept hspot hc, fun b hb =>
    s.whole_child h.whole (mem_children_of_mem_before hc hb)⟩

theorem Sheltered.below (h : s.Sheltered id) (he : (ofNode source (some root)).Below id e) :
    s.Sheltered e := by
  induction he with
  | single hc => exact h.child hc
  | tail _ hc ih => exact ih.child hc

/-- Where a name of a sheltered expression leads is sheltered. -/
theorem Sheltered.bound (hfields : (ofNode source (some root)).WritesFieldTypes)
    (h : s.Sheltered id) (hsees : (ofNode source (some root)).Sees id e) : s.Sheltered e := by
  obtain ⟨name, p, hp, hbinding⟩ := hsees
  obtain ⟨n, above, hn⟩ | houtside := numbered_or_outside root id
  · obtain ⟨hchild, hscopes⟩ := scopes_of_scope hn hp
    obtain ⟨sibling, hbelow, hsibling⟩ := bindingIn?_ofExpression hfields hbinding
    have htold := h.told p hp
    -- the sibling is a child of the same scope, which tells it nothing from elsewhere
    have hsheltered : sibling ∈ (ofNode source (some root)).children p.2 → s.Whole sibling →
        s.Told sibling p.2 → s.Sheltered sibling := by
      intro hmem hwhole htold
      refine ⟨hwhole, ?_⟩
      rw [ancestors_child hmem, List.zip_cons_cons, List.forall_mem_cons]
      exact ⟨htold, fun q hq => h.told q (hscopes hq)⟩
    refine Sheltered.below ?_ hbelow
    rcases hsibling with ⟨hleader, hmem⟩ | ⟨hleader, hne⟩
    · cases htold with
      | leader hself => cases hleader.symm.trans hself
      | ahead hwhole hahead =>
          exact hsheltered (mem_children_of_mem_before hchild hmem) (hahead.whole _ hmem)
            (.ahead hwhole (hahead.of_mem hmem))
      | tests hkind _ =>
          -- tests give types outright
          unfold Tree.bindingIn? at hbinding
          rw [hkind] at hbinding
          obtain ⟨_, -, htest⟩ := List.exists_of_findSome?_eq_some hbinding
          exact absurd htest patternBinding?_ne
    · cases htold with
      | leader hself => exact absurd (Option.some.inj (hleader.symm.trans hself)) hne
      | ahead hwhole _ =>
          exact hsheltered (mem_children_of_leader? hleader) (hwhole _ hleader) (.leader hleader)
      | tests hkind _ => simp [leader?, hkind] at hleader
  · rw [ancestors_eq_nil houtside] at hp
    cases hp

/-- A sheltered expression asks only for the types of others that are sheltered. -/
theorem Sheltered.asks (hfields : (ofNode source (some root)).WritesFieldTypes)
    (h : s.Sheltered id) (he : (ofNode source (some root)).Asks e id) : s.Sheltered e := by
  rcases Asks.cases he with hc | ⟨name, hname | hfield⟩
  · exact h.child hc
  · exact h.bound hfields (sees_of_nameBinding? hname)
  · obtain ⟨body, -, hfield⟩ := Option.bind_eq_some_iff.mp hfield
    exact absurd hfield (fieldBinding?_ne hfields)

theorem infer_of_le {t : Tree} {type : Option StaticType} {depth depth' : Nat}
    (hle : depth ≤ depth') (h : t.infer depth id = some type) : t.infer depth' id = some type := by
  induction hle with
  | refl => exact h
  | step _ ih => exact infer_succ ih

theorem lt_size_of_kind? {t : Tree} {kind : NodeKind} (h : t.kind? id = some kind) :
    id < t.size := by
  rw [kind?, Option.map_eq_some_iff] at h
  obtain ⟨slot, hslot, -⟩ := h
  obtain ⟨hlt, -⟩ := Array.getElem?_eq_some_iff.mp hslot
  exact hlt

/-- Sheltered expressions have counterparts, so that there are no more of them than nodes in the
other tree, and as many steps lead to their types. -/
theorem Sheltered.infer_size (hfields : (ofNode source (some root)).WritesFieldTypes)
    (h : s.Sheltered id) (hlt : id < root.size) :
    ∃ depth type, depth ≤ root.size ∧ depth ≤ root'.size ∧
      (ofNode source (some root)).infer depth id = some type := by
  classical
  have hsize : (ofNode source (some root)).size = root.size := size_ofNode
  have hsize' : (ofNode source' (some root')).size = root'.size := size_ofNode
  let nodes := (Finset.range root.size).filter s.Sheltered
  have hmem : ∀ {i}, i ∈ nodes ↔ i < root.size ∧ s.Sheltered i := by
    intro i
    rw [Finset.mem_filter, Finset.mem_range]
  have hmove : ∀ i ∈ nodes, s.move i ∈ Finset.range root'.size := by
    intro i hi
    obtain ⟨hlt, hi⟩ := hmem.mp hi
    obtain ⟨m, above, hm⟩ := Numbered.exists_of_lt root hlt
    rw [Finset.mem_range, ← hsize']
    exact lt_size_of_kind? ((s.kind (s.kept hi.whole)).trans (kind?_eq hm))
  have hcard : nodes.card ≤ root'.size := by
    rw [← Finset.card_range root'.size]
    refine Finset.card_le_card_of_injOn s.move hmove fun i hi j hj heq => ?_
    exact s.injective (s.kept (hmem.mp hi).2.whole) (s.kept (hmem.mp hj).2.whole) heq
  have hcard' : nodes.card ≤ root.size := by
    rw [← Finset.card_range root.size]
    exact Finset.card_filter_le _ _
  have hfound := infer_card_isSome (asks_wellFounded hfields)
    (fun hasks hi => hmem.mpr ⟨hsize ▸ hasks.lt_size hfields, (hmem.mp hi).2.asks hfields hasks⟩)
    (hmem.mpr ⟨hlt, h⟩)
  obtain ⟨type, htype⟩ := Option.isSome_iff_exists.mp hfound
  exact ⟨nodes.card, type, hcard', hcard, htype⟩

/-- A sheltered expression has the same type in both trees, and asking for it ends. -/
theorem Sheltered.typeOf (hfields : (ofNode source (some root)).WritesFieldTypes)
    (h : s.Sheltered id) (hlt : id < root.size) :
    ((ofNode source' (some root')).infer (root'.size + 1) (s.move id)).isSome ∧
      (ofNode source' (some root')).typeOf (s.move id) =
        (ofNode source (some root)).typeOf id := by
  obtain ⟨depth, type, hle, hle', htype⟩ := h.infer_size hfields hlt
  have htype' : (ofNode source' (some root')).infer (root'.size + 1) (s.move id) = some type := by
    rw [infer (fun hasks hi => hi.asks hfields hasks) h,
      infer_of_le (Nat.le_succ_of_le hle') htype]
  rw [Tree.typeOf, Tree.typeOf, size_ofNode, size_ofNode, htype',
    infer_of_le (Nat.le_succ_of_le hle) htype]
  exact ⟨rfl, rfl⟩

end Asking

end Sharing

end DotCompletion.Tree
