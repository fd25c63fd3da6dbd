import Mathlib.Data.List.Forall2
import DotCompletion.Proofs.Tree.Rows

/-!
# Numbers and nodes

Each row of the table of a tree is the row of a node, and what the table says of
a number is what the tree says of the node: its parent, its children, the nodes
around it. `Node.Numbered` names the node behind a number together with the
nodes around it; every number of the table has exactly one.
-/

namespace DotCompletion

namespace Node

/-- The number of a node of a tree, and the numbered nodes around it from the
inside out. -/
inductive Numbered (root : Node) : Nat → Node → List (Nat × Node) → Prop
  | root : Numbered root 0 root []
  | child {id : Nat} {n m : Node} {above : List (Nat × Node)} {front back : List Node}
      (h : Numbered root id n above) (hsplit : n.children = front ++ m :: back) :
      Numbered root (id + 1 + sizeAll front) m ((id, n) :: above)

namespace Numbered

variable {root n : Node} {id : Nat} {above : List (Nat × Node)}

/-- The rows of a child stand among those of its parent, and name the siblings on both sides. -/
theorem exists_rows_child {front back : List Slot} {parent previous next : Option Nat}
    (hrows : root.slots none none none 0 = front ++ (n.slots parent previous next id ++ back))
    (hlength : front.length = id) {row rest : List Node} {m : Node}
    (hsplit : n.children = row ++ m :: rest) :
    ∃ front' back', root.slots none none none 0 = front' ++
        (m.slots (some id) (numbers (id + 1) row).getLast?
          (numbers (id + 1 + sizeAll row + m.size) rest).head? (id + 1 + sizeAll row) ++ back') ∧
      front'.length = id + 1 + sizeAll row := by
  obtain ⟨before, behind, hall, hbefore⟩ := exists_slotsAll id none (id + 1) row m rest
  rw [slots_eq parent previous next id n, hsplit, hall, Option.or_none] at hrows
  refine ⟨front ++ ⟨n.kind, n.span, n.token, n.error, parent,
    (numbers (id + 1) (row ++ m :: rest)).head?, (numbers (id + 1) (row ++ m :: rest)).getLast?,
    previous, next⟩ :: before, behind ++ back, ?_, ?_⟩
  · rw [hrows]
    simp only [List.append_assoc, List.cons_append]
  · rw [List.length_append, List.length_cons, hbefore, hlength]
    omega

/-- The rows of the nodes below a node stand together in the table. -/
theorem exists_rows (h : Numbered root id n above) :
    ∃ front back previous next, root.slots none none none 0 =
      front ++ (n.slots (above.head?.map Prod.fst) previous next id ++ back) ∧
        front.length = id := by
  induction h with
  | root => exact ⟨[], [], none, none, by simp, rfl⟩
  | child _ hsplit ih =>
      obtain ⟨front, back, previous, next, hrows, hlength⟩ := ih
      obtain ⟨front', back', hrows', hlength'⟩ := exists_rows_child hrows hlength hsplit
      exact ⟨front', back', _, _, hrows', hlength'⟩

theorem slot_of_rows {front back : List Slot} {parent previous next : Option Nat}
    (hrows : root.slots none none none 0 = front ++ (n.slots parent previous next id ++ back))
    (hlength : front.length = id) :
    (root.slots none none none 0)[id]? = some ⟨n.kind, n.span, n.token, n.error, parent,
      (numbers (id + 1) n.children).head?, (numbers (id + 1) n.children).getLast?,
      previous, next⟩ := by
  rw [hrows, slots_eq, List.getElem?_append_right (by omega), hlength, Nat.sub_self]
  rfl

theorem exists_slot (h : Numbered root id n above) :
    ∃ previous next, (root.slots none none none 0)[id]? = some ⟨n.kind, n.span, n.token, n.error,
      above.head?.map Prod.fst, (numbers (id + 1) n.children).head?,
      (numbers (id + 1) n.children).getLast?, previous, next⟩ := by
  obtain ⟨front, back, previous, next, hrows, hlength⟩ := h.exists_rows
  exact ⟨previous, next, slot_of_rows hrows hlength⟩

theorem slot_child (h : Numbered root id n above) {front back : List Node} {m : Node}
    (hsplit : n.children = front ++ m :: back) :
    (root.slots none none none 0)[id + 1 + sizeAll front]? =
      some ⟨m.kind, m.span, m.token, m.error, some id,
        (numbers (id + 1 + sizeAll front + 1) m.children).head?,
        (numbers (id + 1 + sizeAll front + 1) m.children).getLast?,
        (numbers (id + 1) front).getLast?,
        (numbers (id + 1 + sizeAll front + m.size) back).head?⟩ := by
  obtain ⟨_, _, _, _, hrows, hlength⟩ := h.exists_rows
  obtain ⟨_, _, hrows', hlength'⟩ := exists_rows_child hrows hlength hsplit
  exact slot_of_rows hrows' hlength'

theorem first (h : Numbered root id n above) {m : Node} {back : List Node}
    (hsplit : n.children = m :: back) : Numbered root (id + 1) m ((id, n) :: above) :=
  @Numbered.child root id n m above [] back h hsplit

/-- The numbers of the children are those of the nodes among them. -/
theorem children (h : Numbered root id n above) :
    List.Forall₂ (fun i m => Numbered root i m ((id, n) :: above))
      (numbers (id + 1) n.children) n.children := by
  have hback : ∀ front back, n.children = front ++ back →
      List.Forall₂ (fun i m => Numbered root i m ((id, n) :: above))
        (numbers (id + 1 + sizeAll front) back) back := by
    intro front back
    induction back generalizing front with
    | nil => exact fun _ => .nil
    | cons m back ih =>
        intro hsplit
        have hnext := ih (front ++ [m]) (by rw [hsplit, List.append_assoc]; rfl)
        simp only [sizeAll_append, sizeAll_cons, sizeAll_nil, Nat.add_zero, ← Nat.add_assoc] at hnext
        exact .cons (.child h hsplit) hnext
  exact hback [] n.children rfl

/-- What holds of each child and its number holds along the row. -/
theorem forall₂_children {P : Nat → Node → Prop} (h : Numbered root id n above)
    (hP : ∀ i, ∀ m ∈ n.children, Numbered root i m ((id, n) :: above) → P i m) :
    List.Forall₂ P (numbers (id + 1) n.children) n.children := by
  have hboth := (List.forall₂_and_left _ _).mpr
    ⟨fun m (hm : m ∈ n.children) => hm, List.Forall₂.flip h.children⟩
  exact List.Forall₂.flip (hboth.imp fun m i hmi => hP i m hmi.1 hmi.2)

/-- A number has one node only. -/
theorem unique {n' : Node} {above' : List (Nat × Node)} (h : Numbered root id n above)
    (h' : Numbered root id n' above') : n = n' ∧ above = above' := by
  induction h generalizing n' above' with
  | root =>
      generalize hzero : 0 = id at h'
      cases h' with
      | root => exact ⟨rfl, rfl⟩
      | child => omega
  | @child id n m above front back hparent hsplit ih =>
      have hslot := hparent.slot_child hsplit
      generalize hnumber : id + 1 + sizeAll front = number at h' hslot
      cases h' with
      | root => omega
      | @child id' p _ above' front' back' hparent' hsplit' =>
          rw [hparent'.slot_child hsplit'] at hslot
          simp only [Option.some.injEq, Slot.mk.injEq] at hslot
          obtain ⟨_, _, _, _, rfl, _⟩ := hslot
          obtain ⟨rfl, rfl⟩ := ih hparent'
          rw [hsplit] at hsplit'
          have hfront := front_eq_of_sizeAll_eq hsplit' (by omega)
          subst hfront
          cases List.append_cancel_left hsplit'
          exact ⟨rfl, rfl⟩

/-- A node below a node, by the distance of their numbers. -/
theorem exists_below (h : Numbered root id n above) {distance : Nat} (hlt : distance < n.size) :
    ∃ m inner, Numbered root (id + distance) m (inner ++ above) ∧
      (0 < distance → (id, n) ∈ inner) := by
  induction n using Node.induct generalizing id above distance with
  | step n ih =>
      cases distance with
      | zero => exact ⟨n, [], h, fun hpos => absurd hpos (Nat.lt_irrefl 0)⟩
      | succ distance =>
          have hsearch : ∀ front back, n.children = front ++ back → sizeAll front ≤ distance →
              ∃ m inner, Numbered root (id + (distance + 1)) m (inner ++ above) ∧
                (0 < distance + 1 → (id, n) ∈ inner) := by
            intro front back
            induction back generalizing front with
            | nil =>
                intro hsplit hle
                rw [size_eq, hsplit, List.append_nil] at hlt
                omega
            | cons m back ihback =>
                intro hsplit hle
                by_cases hm : distance < sizeAll front + m.size
                · -- the number lies below this child
                  obtain ⟨m', inner, hm', -⟩ := ih m (by simp [hsplit]) (.child h hsplit)
                    (show distance - sizeAll front < m.size by omega)
                  have hnumber : id + 1 + sizeAll front + (distance - sizeAll front) =
                      id + (distance + 1) := by omega
                  rw [hnumber] at hm'
                  exact ⟨m', inner ++ [(id, n)], by simpa using hm', by simp⟩
                · refine ihback (front ++ [m]) (by simp [hsplit]) ?_
                  simp only [sizeAll_append, sizeAll_cons, sizeAll_nil]
                  omega
          exact hsearch [] n.children rfl (Nat.zero_le _)

/-- Every row of the table is the row of a node. -/
theorem exists_of_lt (root : Node) {id : Nat} (h : id < root.size) :
    ∃ n above, Numbered root id n above := by
  obtain ⟨m, inner, hm, _⟩ := Numbered.root.exists_below h
  rw [Nat.zero_add] at hm
  exact ⟨m, _, hm⟩

theorem every {P : Node → Prop} (hroot : root.Every P) (h : Numbered root id n above) :
    n.Every P := by
  induction h with
  | root => exact hroot
  | child _ hsplit ih => exact ih.child (by simp [hsplit])

theorem parent {m : Node} {k : Nat} (h : Numbered root id n ((k, m) :: above)) :
    Numbered root k m above := by
  cases h with
  | child h _ => exact h

/-- The nodes around a node are nodes of the tree. -/
theorem outer {inner above' : List (Nat × Node)} {outer : Nat × Node}
    (h : Numbered root id n above) (hsplit : above = inner ++ outer :: above') :
    Numbered root outer.1 outer.2 above' := by
  induction h generalizing inner with
  | root => simp at hsplit
  | @child id n m above front back hparent hchildren ih =>
      cases inner with
      | nil =>
          cases hsplit
          exact hparent
      | cons _ inner => exact ih (List.cons.inj hsplit).2

/-- The nodes below a node have the numbers that follow its own. -/
theorem range_of_mem_above (h : Numbered root id n above) {outer : Nat × Node}
    (hmem : outer ∈ above) : outer.1 < id ∧ id + n.size ≤ outer.1 + outer.2.size := by
  induction h with
  | root => cases hmem
  | @child id n m above front back hparent hsplit ih =>
      have hsize : n.size = sizeAll front + (m.size + sizeAll back) + 1 := by
        rw [size_eq, hsplit, sizeAll_append, sizeAll_cons]
      rcases List.mem_cons.mp hmem with rfl | hmem
      · simp only
        omega
      · have houter := ih hmem
        omega

theorem lt_size (h : Numbered root id n above) : id < root.size := by
  obtain ⟨_, _, hslot⟩ := h.exists_slot
  obtain ⟨hlt, -⟩ := List.getElem?_eq_some_iff.mp hslot
  rwa [length_slots] at hlt

/-- The nodes below a node have numbers of the table. -/
theorem add_size_le (h : Numbered root id n above) : id + n.size ≤ root.size := by
  obtain ⟨front, back, _, _, hrows, hlength⟩ := h.exists_rows
  have hsize := congrArg List.length hrows
  simp only [List.length_append, length_slots] at hsize
  omega

theorem length_above_le (h : Numbered root id n above) : above.length ≤ id := by
  induction h with
  | root => exact Nat.le_refl _
  | child _ _ ih =>
      rw [List.length_cons]
      omega

theorem yield_subset (h : Numbered root id n above) {outer : Nat × Node}
    (hmem : outer ∈ (id, n) :: above) : n.yield ⊆ outer.2.yield := by
  induction h generalizing outer with
  | root =>
      rw [List.mem_singleton.mp hmem]
      exact List.Subset.refl _
  | @child id n m above front back hparent hsplit ih =>
      rcases List.mem_cons.mp hmem with rfl | hmem
      · exact List.Subset.refl _
      · intro v hv
        refine ih hmem ?_
        rw [yield_eq, hsplit]
        simp [hv]

/-- A token of a tree is the token of a leaf of it. -/
theorem exists_leaf (h : Numbered root id n above) {v : Token} (hv : v ∈ n.yield) :
    ∃ j m above', Numbered root j m above' ∧ m.token = some v ∧ id ≤ j ∧ j < id + n.size := by
  induction n using Node.induct generalizing id above with
  | step n ih =>
      have hsize := n.size_eq
      rw [yield_eq, List.mem_append] at hv
      rcases hv with hv | hv
      · refine ⟨id, n, above, h, ?_, Nat.le_refl _, by omega⟩
        exact (Option.filter_eq_some_iff.mp (Option.mem_toList.mp hv)).1
      · obtain ⟨m, hm, hv⟩ := mem_yieldAll.mp hv
        obtain ⟨front, back, hsplit⟩ := List.append_of_mem hm
        obtain ⟨j, leaf, above', hleaf, htoken, hge, hlt⟩ := ih m hm (.child h hsplit) hv
        refine ⟨j, leaf, above', hleaf, htoken, by omega, ?_⟩
        rw [hsplit, sizeAll_append, sizeAll_cons] at hsize
        omega

end Numbered

end Node

/-! ## The table -/

namespace Tree

open Node (Numbered)

variable {source : Bytes} {root n : Node} {id : Nat} {above : List (Nat × Node)}

theorem slot?_ofNode (id : Nat) :
    (ofNode source (some root)).slot? id = (root.slots none none none 0)[id]? := by
  rw [slot?, ← Array.getElem?_toList, toList_slots]

theorem size_ofNode : (ofNode source (some root)).size = root.size := by
  rw [size, ← Array.length_toList, toList_slots, Node.length_slots]

theorem root?_ofNode : (ofNode source (some root)).root? = some 0 := by
  have hpos := root.size_pos
  rw [← @size_ofNode source, size] at hpos
  rw [root?, Array.isEmpty_eq_false_iff.mpr (Array.size_pos_iff.mp hpos)]
  rfl

theorem slot?_eq (h : Numbered root id n above) :
    ∃ previous next, (ofNode source (some root)).slot? id = some ⟨n.kind, n.span, n.token, n.error,
      above.head?.map Prod.fst, (Node.numbers (id + 1) n.children).head?,
      (Node.numbers (id + 1) n.children).getLast?, previous, next⟩ := by
  simp only [slot?_ofNode]
  exact h.exists_slot

theorem exists_numbered {s : Slot} (h : (ofNode source (some root)).slot? id = some s) :
    ∃ n above, Numbered root id n above := by
  rw [slot?_ofNode] at h
  obtain ⟨hlt, _⟩ := List.getElem?_eq_some_iff.mp h
  rw [Node.length_slots] at hlt
  exact Numbered.exists_of_lt root hlt

theorem kind?_eq (h : Numbered root id n above) :
    (ofNode source (some root)).kind? id = some n.kind := by
  obtain ⟨_, _, hslot⟩ := slot?_eq h
  rw [kind?, hslot]
  rfl

theorem span?_eq (h : Numbered root id n above) :
    (ofNode source (some root)).span? id = some n.span := by
  obtain ⟨_, _, hslot⟩ := slot?_eq h
  rw [span?, hslot]
  rfl

theorem token?_eq (h : Numbered root id n above) :
    (ofNode source (some root)).token? id = n.token := by
  obtain ⟨_, _, hslot⟩ := slot?_eq h
  rw [token?, hslot]
  rfl

theorem parent?_eq (h : Numbered root id n above) :
    (ofNode source (some root)).parent? id = above.head?.map Prod.fst := by
  obtain ⟨_, _, hslot⟩ := slot?_eq h
  rw [parent?, hslot]
  rfl

theorem firstChild?_eq_head? (h : Numbered root id n above) :
    (ofNode source (some root)).firstChild? id = (Node.numbers (id + 1) n.children).head? := by
  obtain ⟨_, _, hslot⟩ := slot?_eq h
  rw [firstChild?, hslot]
  rfl

theorem lastChild?_eq_getLast? (h : Numbered root id n above) :
    (ofNode source (some root)).lastChild? id = (Node.numbers (id + 1) n.children).getLast? := by
  obtain ⟨_, _, hslot⟩ := slot?_eq h
  rw [lastChild?, hslot]
  rfl

theorem previous?_eq (h : Numbered root id n above) {front back : List Node} {m : Node}
    (hsplit : n.children = front ++ m :: back) :
    (ofNode source (some root)).previous? (id + 1 + Node.sizeAll front) =
      (Node.numbers (id + 1) front).getLast? := by
  rw [previous?, slot?_ofNode, h.slot_child hsplit]
  rfl

theorem next?_eq (h : Numbered root id n above) {front back : List Node} {m : Node}
    (hsplit : n.children = front ++ m :: back) :
    (ofNode source (some root)).next? (id + 1 + Node.sizeAll front) =
      (Node.numbers (id + 1 + Node.sizeAll front + m.size) back).head? := by
  rw [next?, slot?_ofNode, h.slot_child hsplit]
  rfl

theorem previous?_root : (ofNode source (some root)).previous? 0 = none := by
  rw [previous?, slot?_ofNode, Node.slots_eq]
  rfl

theorem next?_root : (ofNode source (some root)).next? 0 = none := by
  rw [next?, slot?_ofNode, Node.slots_eq]
  rfl

@[simp] theorem follow_none (link : Nat → Option Nat) (steps : Nat) : follow link steps none = [] := by
  cases steps <;> rfl

/-- A list is what is met when each of its members is linked to the one behind it. -/
theorem follow_eq {link : Nat → Option Nat} {l : List Nat} {steps : Nat} (hlength : l.length ≤ steps)
    (hlink : ∀ front i back, l = front ++ i :: back → link i = back.head?) :
    follow link steps l.head? = l := by
  induction l generalizing steps with
  | nil => exact follow_none _ _
  | cons i l ih =>
      cases steps with
      | zero => cases hlength
      | succ steps =>
          rw [List.head?_cons, follow, hlink [] i l rfl, ih (Nat.le_of_succ_le_succ hlength)]
          exact fun front j back hsplit => hlink (i :: front) j back (by rw [hsplit]; rfl)

theorem children_eq (h : Numbered root id n above) :
    (ofNode source (some root)).children id = Node.numbers (id + 1) n.children := by
  rw [children, firstChild?_eq_head? h]
  apply follow_eq
  · have hle := Node.length_le_sizeAll n.children
    have hsize := h.add_size_le
    rw [Node.size_eq] at hsize
    rw [Node.length_numbers, size_ofNode]
    omega
  · intro front i back hsplit
    obtain ⟨row, m, rest, hrow, rfl, rfl, rfl⟩ := Node.numbers_split hsplit
    exact next?_eq h hrow

theorem hasKind_eq (h : Numbered root id n above) (p : NodeKind → Bool) :
    (ofNode source (some root)).hasKind p id = p n.kind := by
  rw [hasKind, kind?_eq h]
  rfl

theorem isA_eq (h : Numbered root id n above) (kind : NodeKind) :
    (ofNode source (some root)).isA kind id = (n.kind == kind) := hasKind_eq h _

/-- What has a kind is a node. -/
theorem exists_of_hasKind {p : NodeKind → Bool}
    (h : (ofNode source (some root)).hasKind p id = true) :
    ∃ n above, Numbered root id n above ∧ p n.kind = true := by
  cases hslot : (ofNode source (some root)).slot? id with
  | none =>
      rw [hasKind, kind?, hslot] at h
      cases h
  | some s =>
      obtain ⟨n, above, hn⟩ := exists_numbered hslot
      exact ⟨n, above, hn, by rw [← hasKind_eq hn p, h]⟩

/-- A number outside the table has no row. -/
theorem slot?_eq_none (h : root.size ≤ id) : (ofNode source (some root)).slot? id = none := by
  rw [slot?_ofNode, List.getElem?_eq_none]
  rwa [Node.length_slots]

theorem numbered_or_outside (root : Node) (id : Nat) :
    (∃ n above, Numbered root id n above) ∨ root.size ≤ id := by
  rcases Nat.lt_or_ge id root.size with hlt | hle
  · exact .inl (Numbered.exists_of_lt root hlt)
  · exact .inr hle

theorem head?_children (id : Nat) :
    ((ofNode source (some root)).children id).head? = (ofNode source (some root)).firstChild? id := by
  obtain ⟨n, above, hn⟩ | houtside := numbered_or_outside root id
  · rw [children_eq hn, firstChild?_eq_head? hn]
  · simp [children, firstChild?, slot?_eq_none houtside]

theorem getLast?_children (id : Nat) :
    ((ofNode source (some root)).children id).getLast? =
      (ofNode source (some root)).lastChild? id := by
  obtain ⟨n, above, hn⟩ | houtside := numbered_or_outside root id
  · rw [children_eq hn, lastChild?_eq_getLast? hn]
  · simp [children, firstChild?, lastChild?, slot?_eq_none houtside]

theorem ancestors_eq (h : Numbered root id n above) :
    (ofNode source (some root)).ancestors id = above.map Prod.fst := by
  rw [ancestors, parent?_eq h, ← List.head?_map]
  apply follow_eq
  · have hlt := h.lt_size
    have hle := h.length_above_le
    rw [List.length_map, size_ofNode]
    omega
  · intro front i back hsplit
    obtain ⟨inner, _, rfl, rfl, hcons⟩ := List.map_eq_append_iff.mp hsplit
    obtain ⟨outer, above', rfl, rfl, rfl⟩ := List.map_eq_cons_iff.mp hcons
    rw [parent?_eq (h.outer rfl), List.head?_map]

/-- The nearest node around a node that has a property. -/
theorem ancestor?_eq_some {p : NodeKind → Bool} {outer : Nat} (h : Numbered root id n above)
    (hfound : (ofNode source (some root)).ancestor? p id = some outer) :
    ∃ inner m above', above = inner ++ (outer, m) :: above' ∧ Numbered root outer m above' ∧
      p m.kind = true ∧ ∀ a ∈ inner, p a.2.kind = false := by
  rw [ancestor?, ancestors_eq h, List.find?_map] at hfound
  obtain ⟨⟨_, m⟩, hfind, rfl⟩ := Option.map_eq_some_iff.mp hfound
  obtain ⟨hkind, inner, above', hsplit, hinner⟩ := List.find?_eq_some_iff_append.mp hfind
  have hm := h.outer hsplit
  refine ⟨inner, m, above', hsplit, hm, ?_, fun a ha => ?_⟩
  · exact (hasKind_eq hm p).symm.trans hkind
  · obtain ⟨front, back, rfl⟩ := List.append_of_mem ha
    have ha' := h.outer (hsplit.trans (List.append_assoc _ _ _))
    have hnot := hinner a (by simp)
    rw [Function.comp_apply, hasKind_eq ha' p, Bool.not_eq_true'] at hnot
    exact hnot

theorem ancestor?_of_above {p : NodeKind → Bool} {inner : List (Nat × Node)} {k : Nat} {m : Node}
    (h : Numbered root id n (inner ++ (k, m) :: above))
    (hinner : ∀ a ∈ inner, p a.2.kind = false) (hm : p m.kind = true) :
    (ofNode source (some root)).ancestor? p id = some k := by
  have hnone : (inner.map Prod.fst).find? ((ofNode source (some root)).hasKind p) = none := by
    rw [List.find?_eq_none]
    intro i hi
    obtain ⟨a, ha, rfl⟩ := List.mem_map.mp hi
    obtain ⟨front, back, rfl⟩ := List.append_of_mem ha
    rw [List.append_assoc] at h
    rw [hasKind_eq (h.outer rfl), hinner a ha]
    exact Bool.false_ne_true
  rw [ancestor?, ancestors_eq h, List.map_append, List.find?_append, hnone, Option.none_or,
    List.map_cons, List.find?_cons_of_pos]
  rw [hasKind_eq (h.outer rfl), hm]

theorem exists_child (h : Numbered root id n above) {c : Nat}
    (hc : c ∈ (ofNode source (some root)).children id) :
    ∃ front m back, n.children = front ++ m :: back ∧ c = id + 1 + Node.sizeAll front ∧
      Numbered root c m ((id, n) :: above) := by
  rw [children_eq h] at hc
  obtain ⟨front, m, back, hsplit, rfl⟩ := Node.mem_numbers hc
  exact ⟨front, m, back, hsplit, rfl, .child h hsplit⟩

theorem exists_firstChild (h : Numbered root id n above) {c : Nat}
    (hc : (ofNode source (some root)).firstChild? id = some c) :
    ∃ m back, n.children = m :: back ∧ Numbered root c m ((id, n) :: above) := by
  rw [firstChild?_eq_head? h] at hc
  cases hchildren : n.children with
  | nil =>
      rw [hchildren] at hc
      cases hc
  | cons m back =>
      rw [hchildren, Node.numbers, List.head?_cons, Option.some.injEq] at hc
      have hm := h.first hchildren
      rw [hc] at hm
      exact ⟨m, back, rfl, hm⟩

theorem firstChild?_eq (h : Numbered root id n above) {m : Node} {back : List Node}
    (hsplit : n.children = m :: back) :
    (ofNode source (some root)).firstChild? id = some (id + 1) := by
  rw [firstChild?_eq_head? h, hsplit]
  rfl

/-- The first child is found by its kind. -/
theorem firstOfKind?_first (h : Numbered root id n above) {m : Node} {back : List Node}
    (hsplit : n.children = m :: back) :
    (ofNode source (some root)).firstOfKind? [m.kind] id = some (id + 1) := by
  rw [firstOfKind?, children_eq h, hsplit, Node.numbers, List.find?_cons_of_pos]
  rw [hasKind_eq (h.first hsplit)]
  simp

theorem lastChild?_eq (h : Numbered root id n above) {front : List Node} {m : Node}
    (hsplit : n.children = front ++ [m]) :
    (ofNode source (some root)).lastChild? id = some (id + 1 + Node.sizeAll front) := by
  rw [lastChild?_eq_getLast? h, hsplit, Node.numbers_append, Node.numbers, Node.numbers,
    List.getLast?_append, List.getLast?_singleton]
  rfl

/-- The numbers in front of a node are those of the nodes in front of it. -/
theorem before_eq (h : Numbered root id n above) {front back : List Node} {m : Node}
    (hsplit : n.children = front ++ m :: back) :
    (ofNode source (some root)).before (id + 1 + Node.sizeAll front) =
      (Node.numbers (id + 1) front).reverse := by
  rw [before, previous?_eq h hsplit, ← List.head?_reverse]
  apply follow_eq
  · have hle := Node.length_le_sizeAll front
    have hlt := (Numbered.child h hsplit).lt_size
    rw [List.length_reverse, Node.length_numbers, size_ofNode]
    omega
  · intro behind i ahead hreverse
    rw [List.reverse_eq_iff, List.reverse_append, List.reverse_cons, List.append_assoc] at hreverse
    obtain ⟨row, m', rest, rfl, hahead, rfl, -⟩ := Node.numbers_split hreverse
    rw [previous?_eq h (hsplit.trans (List.append_assoc _ _ _)), ← hahead, List.getLast?_reverse]

/-- The nearest node in front that has a property. -/
theorem exists_previous (h : Numbered root id n above) {p : NodeKind → Bool} {previous : Nat}
    (hfound : (ofNode source (some root)).previousOf? p id = some previous) :
    ∃ outer parent above' front m middle back, above = (outer, parent) :: above' ∧
      parent.children = front ++ m :: (middle ++ n :: back) ∧
      Numbered root previous m above ∧ p m.kind = true := by
  cases h with
  | root =>
      rw [previousOf?, before, previous?_root, follow_none] at hfound
      cases hfound
  | @child outer parent _ above' front back hparent hsplit =>
      rw [previousOf?, before_eq hparent hsplit] at hfound
      have hmem := List.mem_of_find?_eq_some hfound
      rw [List.mem_reverse] at hmem
      obtain ⟨front', m, middle, rfl, rfl⟩ := Node.mem_numbers hmem
      have hchildren : parent.children = front' ++ m :: (middle ++ n :: back) := by
        rw [hsplit, List.append_assoc]
        rfl
      have hm := Numbered.child hparent hchildren
      refine ⟨outer, parent, above', front', m, middle, back, rfl, hchildren, hm, ?_⟩
      exact (hasKind_eq hm p).symm.trans (List.find?_some hfound)

end Tree

end DotCompletion
