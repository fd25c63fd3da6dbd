import Mathlib.Logic.Relation
import DotCompletion.Proofs.Tree.Numbering

/-!
# Flattening loses nothing

The table of a tree holds its nodes in preorder, and the links between the rows
are those between the nodes: they agree with each other, a node and what is
below it have the numbers of an interval, and the tree can be read back from
them. `Tree.Flattens` lists what this means for the queries, and
`Tree.ofNode_flattens` says that it holds of the table of every tree.
-/

namespace DotCompletion

/-- A row without its links. -/
def Slot.content (s : Slot) : NodeKind × Span × Option Token × Option Diagnostic :=
  (s.kind, s.span, s.token, s.error)

namespace Node

mutual

/-- A node and the nodes below it, parents before children and children from
left to right. -/
def preorder : Node → List Node
  | ⟨kind, span, token, error, children⟩ =>
    ⟨kind, span, token, error, children⟩ :: preorderAll children

/-- The nodes of a row of trees in preorder. -/
def preorderAll : List Node → List Node
  | [] => []
  | n :: rest => preorder n ++ preorderAll rest

end

/-- A node without its children. -/
def content (n : Node) : NodeKind × Span × Option Token × Option Diagnostic :=
  (n.kind, n.span, n.token, n.error)

/-- The number of nodes that stand in the tree at a place of the preorder and
below it. -/
def sizeAt (root : Node) (id : Nat) : Nat := ((root.preorder[id]?).map size).getD 0

theorem preorder_eq (n : Node) : n.preorder = n :: preorderAll n.children := by
  cases n
  rw [preorder]

theorem preorderAll_append (front back : List Node) :
    preorderAll (front ++ back) = preorderAll front ++ preorderAll back := by
  induction front with
  | nil => rfl
  | cons n front ih => rw [List.cons_append, preorderAll, preorderAll, ih, List.append_assoc]

theorem length_preorderAll {row : List Node} (h : ∀ n ∈ row, n.preorder.length = n.size) :
    (preorderAll row).length = sizeAll row := by
  induction row with
  | nil => rfl
  | cons n row ih =>
      obtain ⟨hn, hrow⟩ := List.forall_mem_cons.mp h
      rw [preorderAll, List.length_append, hn, ih hrow, sizeAll_cons]

theorem length_preorder (n : Node) : n.preorder.length = n.size := by
  induction n using Node.induct with
  | step n ih => rw [preorder_eq, List.length_cons, length_preorderAll ih, size_eq]

theorem content_slots (n : Node) : ∀ parent previous next id,
    (n.slots parent previous next id).map Slot.content = n.preorder.map content := by
  induction n using Node.induct with
  | step n ih =>
      have hall : ∀ (row : List Node) (parent : Nat) (previous : Option Nat) (id : Nat),
          (∀ m ∈ row, ∀ parent previous next id,
            (m.slots parent previous next id).map Slot.content = m.preorder.map content) →
          (slotsAll parent previous id row).map Slot.content = (preorderAll row).map content := by
        intro row parent previous id hrow
        induction row generalizing previous id with
        | nil => rfl
        | cons m row ihrow =>
            obtain ⟨hm, hrow⟩ := List.forall_mem_cons.mp hrow
            rw [slotsAll, preorderAll, List.map_append, List.map_append, hm, ihrow _ _ hrow]
      intro parent previous next id
      rw [slots_eq, preorder_eq, List.map_cons, List.map_cons, hall n.children id none _ ih]
      rfl

namespace Numbered

variable {root n : Node} {id : Nat} {above : List (Nat × Node)}

theorem exists_preorder (h : Numbered root id n above) :
    ∃ front back, root.preorder = front ++ (n.preorder ++ back) ∧ front.length = id := by
  induction h with
  | root => exact ⟨[], [], by simp, rfl⟩
  | @child id n m above before behind _ hsplit ih =>
      obtain ⟨front, back, hnodes, hlength⟩ := ih
      refine ⟨front ++ n :: preorderAll before, preorderAll behind ++ back, ?_, ?_⟩
      · rw [hnodes, n.preorder_eq, hsplit, preorderAll_append, preorderAll]
        simp only [List.append_assoc, List.cons_append]
      · rw [List.length_append, List.length_cons, hlength,
          length_preorderAll fun n _ => length_preorder n]
        omega

theorem preorder (h : Numbered root id n above) : root.preorder[id]? = some n := by
  obtain ⟨front, back, hnodes, hlength⟩ := h.exists_preorder
  rw [hnodes, n.preorder_eq, List.getElem?_append_right (by omega), hlength, Nat.sub_self]
  rfl

theorem of_preorder (h : root.preorder[id]? = some n) : ∃ above, Numbered root id n above := by
  obtain ⟨hlt, -⟩ := List.getElem?_eq_some_iff.mp h
  rw [length_preorder] at hlt
  obtain ⟨n', above, hn'⟩ := exists_of_lt root hlt
  rw [hn'.preorder] at h
  cases h
  exact ⟨above, hn'⟩

theorem sizeAt (h : Numbered root id n above) : root.sizeAt id = n.size := by
  rw [Node.sizeAt, h.preorder]
  rfl

/-- The nodes around a node are those whose numbers begin an interval with the node in it. -/
theorem mem_above_iff (h : Numbered root id n above) {outer : Nat} :
    outer ∈ above.map Prod.fst ↔ outer < id ∧ id < outer + root.sizeAt outer := by
  rw [List.mem_map]
  constructor
  · rintro ⟨⟨outer, m⟩, hmem, rfl⟩
    obtain ⟨front, back, hsplit⟩ := List.append_of_mem hmem
    have hrange := h.range_of_mem_above hmem
    have hpos := n.size_pos
    rw [(h.outer hsplit).sizeAt]
    simp only at hrange ⊢
    omega
  · rintro ⟨hlt, hle⟩
    obtain ⟨m, above', hm⟩ := exists_of_lt root (Nat.lt_trans hlt h.lt_size)
    rw [hm.sizeAt] at hle
    obtain ⟨n', inner, hn', hmem⟩ := hm.exists_below (show id - outer < m.size by omega)
    rw [Nat.add_sub_cancel' (Nat.le_of_lt hlt)] at hn'
    obtain ⟨-, rfl⟩ := h.unique hn'
    exact ⟨(outer, m), List.mem_append_left _ (hmem (by omega)), rfl⟩

end Numbered

/-- A node and those below it stand in the table. -/
theorem add_sizeAt_le (root : Node) (id : Nat) :
    root.sizeAt id = 0 ∨ id + root.sizeAt id ≤ root.size := by
  cases hnode : root.preorder[id]? with
  | none =>
      left
      rw [sizeAt, hnode]
      rfl
  | some n =>
      right
      obtain ⟨above, hn⟩ := Numbered.of_preorder hnode
      rw [hn.sizeAt]
      exact hn.add_size_le

end Node

namespace Tree

open Node (Numbered)

variable {source : Bytes} {root n : Node} {id : Nat} {above : List (Nat × Node)}

/-! ## Links -/

theorem exists_of_bind {α : Type} {f : Slot → Option α} {x : α}
    (h : ((ofNode source (some root)).slot? id).bind f = some x) :
    ∃ n above, Numbered root id n above := by
  obtain ⟨s, hslot, -⟩ := Option.bind_eq_some_iff.mp h
  exact exists_numbered hslot

theorem exists_of_mem_children {c : Nat} (h : c ∈ (ofNode source (some root)).children id) :
    ∃ n above, Numbered root id n above := by
  cases hfirst : (ofNode source (some root)).firstChild? id with
  | none =>
      rw [children, hfirst, follow_none] at h
      cases h
  | some first => exact exists_of_bind hfirst

theorem mem_children {m : Node} {c : Nat} (h : Numbered root c m ((id, n) :: above)) :
    c ∈ (ofNode source (some root)).children id := by
  cases h with
  | child hparent hsplit =>
      rw [children_eq hparent, hsplit, Node.numbers_append]
      exact List.mem_append_right _ List.mem_cons_self

theorem parent?_eq_some_iff {c : Nat} :
    (ofNode source (some root)).parent? c = some id ↔
      c ∈ (ofNode source (some root)).children id := by
  constructor
  · intro h
    obtain ⟨m, above, hm⟩ := exists_of_bind h
    rw [parent?_eq hm] at h
    obtain ⟨⟨_, n⟩, hhead, rfl⟩ := Option.map_eq_some_iff.mp h
    obtain ⟨above, rfl⟩ := List.head?_eq_some_iff.mp hhead
    exact mem_children hm
  · intro h
    obtain ⟨n, above, hn⟩ := exists_of_mem_children h
    obtain ⟨_, m, _, _, _, hm⟩ := exists_child hn h
    rw [parent?_eq hm]
    rfl

/-- Where a child stands among the children, a node stands among those of the parent. -/
theorem exists_split {c : Nat} {front back : List Nat}
    (h : (ofNode source (some root)).children id = front ++ c :: back) :
    ∃ n above row m rest, Numbered root id n above ∧ n.children = row ++ m :: rest ∧
      front = Node.numbers (id + 1) row ∧ c = id + 1 + Node.sizeAll row ∧
      back = Node.numbers (id + 1 + Node.sizeAll row + m.size) rest := by
  obtain ⟨n, above, hn⟩ := exists_of_mem_children
    (show c ∈ (ofNode source (some root)).children id by simp [h])
  rw [children_eq hn] at h
  obtain ⟨row, m, rest, hrow, hfront, hc, hback⟩ := Node.numbers_split h
  exact ⟨n, above, row, m, rest, hn, hrow, hfront, hc, hback⟩

/-- The link to the sibling behind leads from child to child. -/
theorem next?_eq_some_iff {a b : Nat} :
    (ofNode source (some root)).next? a = some b ↔
      ∃ id front back, (ofNode source (some root)).children id = front ++ a :: b :: back := by
  constructor
  · intro h
    obtain ⟨m, above, hm⟩ := exists_of_bind h
    cases hm with
    | root => cases next?_root.symm.trans h
    | @child id n _ above front back hparent hsplit =>
        rw [next?_eq hparent hsplit] at h
        obtain ⟨behind, hbehind⟩ := List.head?_eq_some_iff.mp h
        refine ⟨id, Node.numbers (id + 1) front, behind, ?_⟩
        rw [children_eq hparent, hsplit, Node.numbers_append, Node.numbers, hbehind]
  · rintro ⟨id, front, back, hchildren⟩
    obtain ⟨n, above, row, m, rest, hn, hrow, -, rfl, hback⟩ := exists_split hchildren
    rw [next?_eq hn hrow, ← hback, List.head?_cons]

/-- The link to the sibling in front leads back. -/
theorem previous?_eq_some_iff {a b : Nat} :
    (ofNode source (some root)).previous? b = some a ↔
      ∃ id front back, (ofNode source (some root)).children id = front ++ a :: b :: back := by
  constructor
  · intro h
    obtain ⟨m, above, hm⟩ := exists_of_bind h
    cases hm with
    | root => cases previous?_root.symm.trans h
    | @child id n _ above front back hparent hsplit =>
        rw [previous?_eq hparent hsplit] at h
        obtain ⟨ahead, hahead⟩ := List.getLast?_eq_some_iff.mp h
        refine ⟨id, ahead, Node.numbers (id + 1 + Node.sizeAll front + m.size) back, ?_⟩
        rw [children_eq hparent, hsplit, Node.numbers_append, Node.numbers, hahead,
          List.append_assoc, List.singleton_append]
  · rintro ⟨id, front, back, hchildren⟩
    rw [List.append_cons] at hchildren
    obtain ⟨n, above, row, m, rest, hn, hrow, hfront, rfl, -⟩ := exists_split hchildren
    rw [previous?_eq hn hrow, ← hfront, List.getLast?_concat]

theorem previous?_firstChild {c : Nat} (h : (ofNode source (some root)).firstChild? id = some c) :
    (ofNode source (some root)).previous? c = none := by
  rw [← head?_children] at h
  obtain ⟨back, hback⟩ := List.head?_eq_some_iff.mp h
  rw [← List.nil_append (c :: back)] at hback
  obtain ⟨n, above, row, m, rest, hn, hrow, hfront, rfl, -⟩ := exists_split hback
  rw [previous?_eq hn hrow, ← hfront, List.getLast?_nil]

theorem next?_lastChild {c : Nat} (h : (ofNode source (some root)).lastChild? id = some c) :
    (ofNode source (some root)).next? c = none := by
  rw [← getLast?_children] at h
  obtain ⟨front, hfront⟩ := List.getLast?_eq_some_iff.mp h
  obtain ⟨n, above, row, m, rest, hn, hrow, -, rfl, hback⟩ := exists_split hfront
  rw [next?_eq hn hrow, ← hback, List.head?_nil]

theorem before_of_children {c : Nat} {front back : List Nat}
    (h : (ofNode source (some root)).children id = front ++ c :: back) :
    (ofNode source (some root)).before c = front.reverse := by
  obtain ⟨n, above, row, m, rest, hn, hrow, rfl, rfl, -⟩ := exists_split h
  exact before_eq hn hrow

theorem ancestors_child {c : Nat} (h : c ∈ (ofNode source (some root)).children id) :
    (ofNode source (some root)).ancestors c = id :: (ofNode source (some root)).ancestors id := by
  obtain ⟨n, above, hn⟩ := exists_of_mem_children h
  obtain ⟨_, m, _, _, _, hm⟩ := exists_child hn h
  rw [ancestors_eq hm, ancestors_eq hn, List.map_cons]

theorem ancestors_eq_nil (h : root.size ≤ id) : (ofNode source (some root)).ancestors id = [] := by
  rw [ancestors, parent?, slot?_eq_none h, Option.bind_none, follow_none]

/-- The children in the table are those of the node, in their order. -/
theorem map_preorder_children (h : Numbered root id n above) :
    ((ofNode source (some root)).children id).map (root.preorder[·]?) = n.children.map some := by
  have hmap := h.children.imp fun i m (hm : Numbered root i m _) => hm.preorder
  rw [children_eq h, ← List.forall₂_eq_eq_eq, List.forall₂_map_left_iff, List.forall₂_map_right_iff]
  exact hmap

/-! ## What is below a node -/

theorem isAncestor_iff {outer : Nat} :
    (ofNode source (some root)).isAncestor outer id = true ↔
      outer < id ∧ id < outer + root.sizeAt outer := by
  obtain ⟨n, above, hn⟩ | houtside := numbered_or_outside root id
  · rw [isAncestor, ancestors_eq hn, List.contains_iff_mem, hn.mem_above_iff]
  · have hle := root.add_sizeAt_le outer
    rw [isAncestor, ancestors_eq_nil houtside, List.contains_nil]
    constructor
    · intro h
      cases h
    · intro hrange
      omega

/-- The nodes that children lead to, and children of children. -/
def Below (t : Tree) : Nat → Nat → Prop := Relation.TransGen fun id c => c ∈ t.children id

theorem below_of_mem_above {outer : Nat} {m : Node} {inner above' : List (Nat × Node)}
    (h : Numbered root id n (inner ++ (outer, m) :: above')) :
    (ofNode source (some root)).Below outer id := by
  induction inner generalizing id n with
  | nil => exact .single (mem_children h)
  | cons around inner ih => exact (ih h.parent).tail (mem_children h)

theorem below_iff_isAncestor {outer : Nat} :
    (ofNode source (some root)).Below outer id ↔
      (ofNode source (some root)).isAncestor outer id = true := by
  constructor
  · intro h
    induction h with
    | single hchild =>
        rw [isAncestor, ancestors_child hchild, List.contains_iff_mem]
        exact List.mem_cons_self
    | tail _ hchild ih =>
        rw [isAncestor, List.contains_iff_mem] at ih ⊢
        rw [ancestors_child hchild]
        exact List.mem_cons_of_mem _ ih
  · intro h
    obtain ⟨n, above, hn⟩ | houtside := numbered_or_outside root id
    · rw [isAncestor, ancestors_eq hn, List.contains_iff_mem, List.mem_map] at h
      obtain ⟨⟨outer, m⟩, hmem, rfl⟩ := h
      obtain ⟨inner, above', rfl⟩ := List.append_of_mem hmem
      exact below_of_mem_above hn
    · rw [isAncestor, ancestors_eq_nil houtside] at h
      cases h

/-- Where every node is entered, all of them are listed. -/
theorem walkTo_eq (h : Numbered root id n above) {enter : NodeKind → Bool}
    (henter : n.Every fun m => enter m.kind = true) {levels : Nat} (hlevels : n.size ≤ levels)
    (behind : List Nat) :
    (ofNode source (some root)).walkTo enter levels id behind =
      List.range' id n.size ++ behind := by
  induction n using Node.induct generalizing id above levels behind with
  | step n ih =>
      have hsize := n.size_eq
      obtain ⟨levels, rfl⟩ := Nat.exists_eq_succ_of_ne_zero (Nat.ne_zero_of_lt
        (Nat.lt_of_lt_of_le n.size_pos hlevels))
      -- the nodes below the children that are left, and then what comes behind
      have hrow : ∀ front back, n.children = front ++ back →
          (Node.numbers (id + 1 + Node.sizeAll front) back).foldr
            ((ofNode source (some root)).walkTo enter levels) behind =
              List.range' (id + 1 + Node.sizeAll front) (Node.sizeAll back) ++ behind := by
        intro front back
        induction back generalizing front with
        | nil => exact fun _ => rfl
        | cons m back ihback =>
            intro hsplit
            have hback := ihback (front ++ [m]) (by rw [hsplit, List.append_assoc]; rfl)
            have hle : m.size ≤ levels := by
              rw [hsplit, Node.sizeAll_append, Node.sizeAll_cons] at hsize
              omega
            simp only [Node.sizeAll_append, Node.sizeAll_cons, Node.sizeAll_nil, Nat.add_zero,
              ← Nat.add_assoc] at hback
            have hm : m ∈ n.children := by simp [hsplit]
            rw [Node.numbers, List.foldr_cons, hback,
              ih m hm (.child h hsplit) (henter.child hm) hle, ← List.append_assoc,
              List.range'_append_1, Node.sizeAll_cons]
      obtain ⟨_, _, hslot⟩ := @slot?_eq source _ _ _ _ h
      have hall := hrow [] n.children rfl
      rw [Node.sizeAll_nil, Nat.add_zero] at hall
      rw [walkTo, hslot, hsize, List.range'_succ]
      simp only [henter.own, if_true, children_eq h, hall, List.cons_append]

theorem walk_eq (h : Numbered root id n above) {enter : NodeKind → Bool}
    (henter : n.Every fun m => enter m.kind = true) :
    (ofNode source (some root)).walk enter id = List.range' id n.size := by
  have hle := h.add_size_le
  rw [walk, walkTo_eq h henter (by rw [size_ofNode]; omega), List.append_nil]

theorem walk_eq_range' (id : Nat) :
    (ofNode source (some root)).walk (fun _ => true) id = List.range' id (root.sizeAt id) := by
  obtain ⟨n, above, hn⟩ | houtside := numbered_or_outside root id
  · rw [walk_eq hn (.of_forall n fun _ => rfl), hn.sizeAt]
  · have hsize : root.sizeAt id = 0 := by
      have hle := root.add_sizeAt_le id
      omega
    rw [hsize, walk]
    cases (ofNode source (some root)).size with
    | zero => rfl
    | succ levels =>
        rw [walkTo, slot?_eq_none houtside]
        rfl

/-! ## Reading a tree back -/

/-- The node with a number, read off the links down to a number of levels. -/
def nodeTo? (t : Tree) : Nat → Nat → Option Node
  | 0, _ => none
  | levels + 1, id => do
    let s ← t.slot? id
    let children ← (t.children id).mapM (t.nodeTo? levels)
    return ⟨s.kind, s.span, s.token, s.error, children⟩

/-- The node with a number, read off the links. -/
def node? (t : Tree) (id : Nat) : Option Node := t.nodeTo? t.size id

theorem mapM_eq_some_iff {α β : Type} {f : α → Option β} {as : List α} {bs : List β} :
    as.mapM f = some bs ↔ List.Forall₂ (fun a b => f a = some b) as bs := by
  induction as generalizing bs with
  | nil => simp [eq_comm]
  | cons a as ih =>
      rw [List.mapM_cons, List.forall₂_cons_left_iff]
      simp only [Option.bind_eq_bind, Option.bind_eq_some_iff, Option.pure_def, Option.some.injEq,
        ih]
      constructor
      · rintro ⟨b, hb, bs, hbs, rfl⟩
        exact ⟨b, bs, hb, hbs, rfl⟩
      · rintro ⟨b, bs, hb, hbs, rfl⟩
        exact ⟨b, hb, bs, hbs, rfl⟩

theorem nodeTo?_eq (h : Numbered root id n above) {levels : Nat} (hlevels : n.size ≤ levels) :
    (ofNode source (some root)).nodeTo? levels id = some n := by
  induction n using Node.induct generalizing id above levels with
  | step n ih =>
      have hsize := n.size_eq
      obtain ⟨levels, rfl⟩ := Nat.exists_eq_succ_of_ne_zero (Nat.ne_zero_of_lt
        (Nat.lt_of_lt_of_le n.size_pos hlevels))
      obtain ⟨_, _, hslot⟩ := @slot?_eq source _ _ _ _ h
      have hchildren : (Node.numbers (id + 1) n.children).mapM
          ((ofNode source (some root)).nodeTo? levels) = some n.children := by
        rw [mapM_eq_some_iff]
        refine h.forall₂_children fun i m hm hi => ?_
        have hle := Node.size_le_sizeAll hm
        exact ih m hm hi (by omega)
      rw [nodeTo?, hslot, children_eq h]
      simp only [Option.bind_eq_bind, Option.bind_some, hchildren]
      cases n
      rfl

/-- From its number on, a node is read back whole. -/
theorem node?_eq (id : Nat) : (ofNode source (some root)).node? id = root.preorder[id]? := by
  obtain ⟨n, above, hn⟩ | houtside := numbered_or_outside root id
  · have hle := hn.add_size_le
    rw [node?, hn.preorder]
    apply nodeTo?_eq hn
    rw [size_ofNode]
    omega
  · rw [List.getElem?_eq_none (by rwa [Node.length_preorder]), node?]
    cases (ofNode source (some root)).size with
    | zero => rfl
    | succ levels =>
        rw [nodeTo?, slot?_eq_none houtside]
        rfl

/-! ## The table as a whole -/

/-- The table is that of the tree: nothing of the nodes is lost, the links agree
with each other, and the queries find what the tree has. -/
structure Flattens (t : Tree) (root : Node) : Prop where
  /-- The rows are those of the nodes in preorder, the root in front. -/
  contents : t.slots.toList.map Slot.content = root.preorder.map Node.content
  root_zero : t.root? = some 0
  /-- Parents and children know each other. -/
  parent_iff : ∀ id c, t.parent? c = some id ↔ c ∈ t.children id
  first_eq : ∀ id, t.firstChild? id = (t.children id).head?
  last_eq : ∀ id, t.lastChild? id = (t.children id).getLast?
  /-- So do siblings; in front of the first child and behind the last one there is none. -/
  next_iff : ∀ a b, t.next? a = some b ↔ ∃ id front back, t.children id = front ++ a :: b :: back
  previous_iff : ∀ a b, t.previous? b = some a ↔ t.next? a = some b
  first_previous : ∀ id c, t.firstChild? id = some c → t.previous? c = none
  last_next : ∀ id c, t.lastChild? id = some c → t.next? c = none
  /-- The children are those of the node in their order. -/
  children_eq : ∀ id n, root.preorder[id]? = some n →
    (t.children id).map (root.preorder[·]?) = n.children.map some
  /-- What is below a node has the numbers of one interval right behind its own. -/
  below_iff : ∀ outer id, t.Below outer id ↔ outer < id ∧ id < outer + root.sizeAt outer
  isAncestor_iff : ∀ outer id,
    t.isAncestor outer id = true ↔ outer < id ∧ id < outer + root.sizeAt outer
  walk_eq : ∀ id, t.walk (fun _ => true) id = List.range' id (root.sizeAt id)
  /-- The links are enough to read each node back, and the whole tree from its root. -/
  node_eq : ∀ id, t.node? id = root.preorder[id]?
  rebuilt : t.root?.bind t.node? = some root

/-- The table of a tree is a faithful one, whatever the tree. -/
theorem ofNode_flattens (source : Bytes) (root : Node) :
    (ofNode source (some root)).Flattens root := by
  exact
    { contents := by rw [toList_slots, Node.content_slots]
      root_zero := root?_ofNode
      parent_iff := fun _ _ => parent?_eq_some_iff
      first_eq := fun id => (head?_children id).symm
      last_eq := fun id => (getLast?_children id).symm
      next_iff := fun _ _ => next?_eq_some_iff
      previous_iff := fun _ _ => previous?_eq_some_iff.trans next?_eq_some_iff.symm
      first_previous := fun _ _ => previous?_firstChild
      last_next := fun _ _ => next?_lastChild
      children_eq := fun _ _ h => by
        obtain ⟨above, hn⟩ := Numbered.of_preorder h
        exact map_preorder_children hn
      below_iff := fun _ _ => below_iff_isAncestor.trans isAncestor_iff
      isAncestor_iff := fun _ _ => isAncestor_iff
      walk_eq := walk_eq_range'
      node_eq := node?_eq
      rebuilt := by rw [root?_ofNode, Option.bind_some, node?_eq, Numbered.root.preorder] }

end Tree

end DotCompletion
