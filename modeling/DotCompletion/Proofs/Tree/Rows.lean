import DotCompletion.Proofs.Node.Yield
import DotCompletion.Tree.Query

/-!
# The rows of a tree

While a tree is added to a table, rows that stand there are changed: a parent
hears of its first child, a child of the sibling behind it, and a parent of its
last child when all of them are there. `Node.slots` says at once which rows a
tree leaves behind, and `Node.toList_addTo` that adding it leaves these.
-/

namespace DotCompletion

namespace Node

mutual

/-- The number of nodes in a tree. -/
def size : Node → Nat
  | ⟨_, _, _, _, children⟩ => sizeAll children + 1

/-- The number of nodes in a row of trees. -/
def sizeAll : List Node → Nat
  | [] => 0
  | n :: rest => size n + sizeAll rest

end

/-- The numbers of the nodes of a row, the first of which has number `id`. -/
def numbers (id : Nat) : List Node → List Nat
  | [] => []
  | n :: rest => id :: numbers (id + n.size) rest

mutual

/-- The rows of a tree whose root has number `id` and the given neighbours. -/
def slots (parent previous next : Option Nat) (id : Nat) : Node → List Slot
  | ⟨kind, span, token, error, children⟩ =>
    ⟨kind, span, token, error, parent, (numbers (id + 1) children).head?,
        (numbers (id + 1) children).getLast?, previous, next⟩
      :: slotsAll id none (id + 1) children

/-- The rows of the children of `parent` that come behind `previous`, the first
of which has number `id`. -/
def slotsAll (parent : Nat) (previous : Option Nat) (id : Nat) : List Node → List Slot
  | [] => []
  | n :: rest =>
    slots (some parent) previous (numbers (id + n.size) rest).head? id n
      ++ slotsAll parent (some id) (id + n.size) rest

end

/-! ## Sizes and numbers -/

theorem size_pos (n : Node) : 0 < n.size := by
  cases n
  rw [size]
  omega

theorem size_eq (n : Node) : n.size = sizeAll n.children + 1 := by
  cases n
  rw [size]

@[simp] theorem sizeAll_nil : sizeAll [] = 0 := rfl

@[simp] theorem sizeAll_cons (n : Node) (rest : List Node) :
    sizeAll (n :: rest) = n.size + sizeAll rest := rfl

@[simp] theorem sizeAll_append (front back : List Node) :
    sizeAll (front ++ back) = sizeAll front + sizeAll back := by
  induction front with
  | nil => simp
  | cons n front ih => simp only [List.cons_append, sizeAll_cons, ih, Nat.add_assoc]

theorem numbers_append (id : Nat) (front back : List Node) :
    numbers id (front ++ back) = numbers id front ++ numbers (id + sizeAll front) back := by
  induction front generalizing id with
  | nil => rfl
  | cons n front ih =>
      simp only [List.cons_append, numbers, ih, sizeAll_cons, Nat.add_assoc]

theorem mem_numbers {id i : Nat} {row : List Node} (h : i ∈ numbers id row) :
    ∃ front m back, row = front ++ m :: back ∧ i = id + sizeAll front := by
  induction row generalizing id with
  | nil => cases h
  | cons n row ih =>
      rcases List.mem_cons.mp h with rfl | h
      · exact ⟨[], n, row, rfl, rfl⟩
      · obtain ⟨front, m, back, rfl, rfl⟩ := ih h
        exact ⟨n :: front, m, back, rfl, by rw [sizeAll_cons, Nat.add_assoc]⟩

theorem numbers_split {id i : Nat} {row : List Node} {front back : List Nat}
    (h : numbers id row = front ++ i :: back) :
    ∃ row' m rest, row = row' ++ m :: rest ∧ front = numbers id row' ∧ i = id + sizeAll row' ∧
      back = numbers (id + sizeAll row' + m.size) rest := by
  induction row generalizing id front with
  | nil => cases front <;> cases h
  | cons n row ih =>
      cases front with
      | nil =>
          obtain ⟨rfl, rfl⟩ := List.cons.inj h
          exact ⟨[], n, row, rfl, rfl, rfl, rfl⟩
      | cons j front =>
          obtain ⟨rfl, hrest⟩ := List.cons.inj h
          obtain ⟨row', m, rest, rfl, rfl, rfl, rfl⟩ := ih hrest
          refine ⟨n :: row', m, rest, rfl, rfl, ?_, ?_⟩
          · rw [sizeAll_cons, Nat.add_assoc]
          · rw [sizeAll_cons, Nat.add_assoc id]

theorem length_numbers (id : Nat) (row : List Node) : (numbers id row).length = row.length := by
  induction row generalizing id with
  | nil => rfl
  | cons n row ih => rw [numbers, List.length_cons, List.length_cons, ih]

theorem length_le_sizeAll (row : List Node) : row.length ≤ sizeAll row := by
  induction row with
  | nil => exact Nat.le_refl _
  | cons n row ih =>
      have hpos := n.size_pos
      rw [List.length_cons, sizeAll_cons]
      omega

theorem size_le_sizeAll {m : Node} {row : List Node} (h : m ∈ row) : m.size ≤ sizeAll row := by
  obtain ⟨front, back, rfl⟩ := List.append_of_mem h
  rw [sizeAll_append, sizeAll_cons]
  omega

theorem front_eq_of_sizeAll_eq {front front' back back' : List Node} {m m' : Node}
    (hsplit : front ++ m :: back = front' ++ m' :: back')
    (hsize : sizeAll front = sizeAll front') : front = front' := by
  induction front generalizing front' with
  | nil =>
      cases front' with
      | nil => rfl
      | cons n front' =>
          have hpos := n.size_pos
          simp only [sizeAll_nil, sizeAll_cons] at hsize
          omega
  | cons n front ih =>
      cases front' with
      | nil =>
          have hpos := n.size_pos
          simp only [sizeAll_nil, sizeAll_cons] at hsize
          omega
      | cons n' front' =>
          simp only [List.cons_append, List.cons.injEq] at hsplit
          obtain ⟨rfl, hsplit⟩ := hsplit
          simp only [sizeAll_cons] at hsize
          rw [ih hsplit (by omega)]

/-! ## What is left behind -/

theorem slots_eq (parent previous next : Option Nat) (id : Nat) (n : Node) :
    n.slots parent previous next id =
      ⟨n.kind, n.span, n.token, n.error, parent, (numbers (id + 1) n.children).head?,
          (numbers (id + 1) n.children).getLast?, previous, next⟩ ::
        slotsAll id none (id + 1) n.children := by
  cases n
  rw [slots]

theorem length_slotsAll {parent : Nat} {previous : Option Nat} {id : Nat} {row : List Node}
    (h : ∀ n ∈ row, ∀ parent previous next id,
      (n.slots parent previous next id).length = n.size) :
    (slotsAll parent previous id row).length = sizeAll row := by
  induction row generalizing previous id with
  | nil => rfl
  | cons n row ih =>
      rw [slotsAll, List.length_append, h n List.mem_cons_self,
        ih fun m hm => h m (List.mem_cons_of_mem _ hm), sizeAll_cons]

theorem length_slots (n : Node) :
    ∀ parent previous next id, (n.slots parent previous next id).length = n.size := by
  induction n using Node.induct with
  | step n ih =>
      intro parent previous next id
      rw [slots_eq, List.length_cons, length_slotsAll ih, size_eq]

/-- The rows of one of the children, among those of all of them. -/
theorem exists_slotsAll (parent : Nat) (previous : Option Nat) (id : Nat) (front : List Node)
    (n : Node) (back : List Node) :
    ∃ before behind, slotsAll parent previous id (front ++ n :: back) = before ++
        (n.slots (some parent) ((numbers id front).getLast?.or previous)
          (numbers (id + sizeAll front + n.size) back).head? (id + sizeAll front) ++ behind) ∧
      before.length = sizeAll front := by
  induction front generalizing previous id with
  | nil => exact ⟨[], slotsAll parent (some id) (id + n.size) back, rfl, rfl⟩
  | cons m front ih =>
      obtain ⟨before, behind, hrows, hlength⟩ := ih (some id) (id + m.size)
      refine ⟨m.slots (some parent) previous
        (numbers (id + m.size) (front ++ n :: back)).head? id ++ before, behind, ?_, ?_⟩
      · have hlast : (numbers id (m :: front)).getLast?.or previous =
            (numbers (id + m.size) front).getLast?.or (some id) := by
          rw [numbers, List.getLast?_cons]
          cases (numbers (id + m.size) front).getLast? <;> rfl
        rw [List.cons_append, slotsAll, hrows, hlast, sizeAll_cons, ← Nat.add_assoc,
          List.append_assoc]
      · rw [List.length_append, length_slots, hlength, sizeAll_cons]

end Node

/-! ## Adding them -/

namespace Slot

theorem modify_of_lt {front : List Slot} {i : Nat} (h : i < front.length) (back : List Slot)
    (f : Slot → Slot) : (front ++ back).modify i f = front.modify i f ++ back := by
  ext1 j
  by_cases hj : j < front.length
  · rw [List.getElem?_append_left (by rwa [List.length_modify]), List.getElem?_modify,
      List.getElem?_modify, List.getElem?_append_left hj]
  · rw [List.getElem?_append_right (by rw [List.length_modify]; omega), List.length_modify,
      List.getElem?_modify_ne _ _ (by omega), List.getElem?_append_right (by omega)]

theorem modify_length {front : List Slot} {i : Nat} (h : front.length = i) (s : Slot)
    (back : List Slot) (f : Slot → Slot) :
    (front ++ s :: back).modify i f = front ++ f s :: back := by
  induction front generalizing i with
  | nil =>
      subst h
      rfl
  | cons r front ih =>
      subst h
      rw [List.cons_append, List.length_cons, List.modify_succ_cons, ih rfl, List.cons_append]

@[simp] theorem size_announce (rows : Array Slot) (parent : Nat) (previous : Option Nat) (id : Nat) :
    (announce rows parent previous id).size = rows.size := by
  cases previous <;> exact Array.size_modify

theorem announce_of_lt {rows more : Array Slot} {back : List Slot} {parent : Nat}
    {previous : Option Nat} (hmore : more.toList = rows.toList ++ back)
    (hparent : parent < rows.size) (hprevious : ∀ p ∈ previous, p < rows.size) (id : Nat) :
    (announce more parent previous id).toList =
      (announce rows parent previous id).toList ++ back := by
  cases previous with
  | none =>
      simp only [announce, Array.toList_modify, hmore]
      exact modify_of_lt hparent back _
  | some p =>
      simp only [announce, Array.toList_modify, hmore]
      exact modify_of_lt (hprevious p rfl) back _

end Slot

namespace Node

/-- What is added to a table in one go, with a root that has no siblings yet. -/
def Adds (n : Node) : Prop :=
  ∀ parent rows, (n.addTo parent rows).toList = rows.toList ++ n.slots parent none none rows.size

/-- The first of the children is announced to the rows that were there, each other one to the
one in front of it. -/
theorem toList_addAllTo {row : List Node} (hrow : ∀ n ∈ row, n.Adds) {parent : Nat}
    {previous : Option Nat} {rows : Array Slot} (hparent : parent < rows.size)
    (hprevious : ∀ p ∈ previous, p < rows.size) :
    (addAllTo parent previous rows row).1.toList =
      ((numbers rows.size row).head?.elim rows (Slot.announce rows parent previous)).toList ++
        slotsAll parent previous rows.size row ∧
    (addAllTo parent previous rows row).2 = (numbers rows.size row).getLast?.or previous := by
  induction row generalizing previous rows with
  | nil => exact ⟨(List.append_nil _).symm, rfl⟩
  | cons n rest ih =>
      obtain ⟨hn, hrest⟩ := List.forall_mem_cons.mp hrow
      have hlength := length_slots n
      -- the child and what is below it, and then the sibling in front of it
      have hadded : ((n.addTo (some parent) rows).modify rows.size
          fun s => { s with previous }).toList =
            rows.toList ++ n.slots (some parent) previous none rows.size := by
        rw [Array.toList_modify, hn, slots_eq, Slot.modify_length Array.length_toList,
          slots_eq]
      have hannounced := Slot.announce_of_lt hadded hparent hprevious rows.size
      generalize hmore : Slot.announce ((n.addTo (some parent) rows).modify rows.size
        fun s => { s with previous }) parent previous rows.size = more at hannounced
      have hsize : more.size = rows.size + n.size := by
        rw [← Array.length_toList, hannounced, List.length_append, Array.length_toList,
          Slot.size_announce, hlength]
      have hpos := n.size_pos
      obtain ⟨hrows, hlast⟩ := @ih hrest (some rows.size) more (by omega) (by
        rintro p ⟨⟩
        omega)
      rw [addAllTo, hmore]
      constructor
      · -- the child hears of the sibling behind it
        have hnext : (((numbers more.size rest).head?).elim more
            (Slot.announce more parent (some rows.size))).toList =
              (Slot.announce rows parent previous rows.size).toList ++
                n.slots (some parent) previous (numbers more.size rest).head? rows.size := by
          cases (numbers more.size rest).head? with
          | none => exact hannounced
          | some id =>
              rw [Option.elim, Slot.announce, Array.toList_modify, hannounced, slots_eq,
                Slot.modify_length (by simp), slots_eq]
        rw [hrows, hnext, hsize, slotsAll, List.append_assoc]
        rfl
      · rw [hlast, hsize, numbers, List.getLast?_cons]
        cases (numbers (rows.size + n.size) rest).getLast? <;> rfl

theorem adds (n : Node) : n.Adds := by
  induction n using Node.induct with
  | step n ih =>
      intro parent rows
      obtain ⟨kind, span, token, error, children⟩ := n
      obtain ⟨hrows, hlast⟩ := @toList_addAllTo children ih rows.size none
        (rows.push ⟨kind, span, token, error, parent, none, none, none, none⟩)
        (by simp) (by simp)
      -- the new row hears of its first child
      have hfirst : (((numbers (rows.size + 1) children).head?).elim
          (rows.push ⟨kind, span, token, error, parent, none, none, none, none⟩)
          (Slot.announce (rows.push ⟨kind, span, token, error, parent, none, none, none, none⟩)
            rows.size none)).toList = rows.toList ++ [⟨kind, span, token, error, parent,
              (numbers (rows.size + 1) children).head?, none, none, none⟩] := by
        cases (numbers (rows.size + 1) children).head? with
        | none => exact Array.toList_push
        | some id =>
            rw [Option.elim, Slot.announce, Array.toList_modify, Array.toList_push,
              Slot.modify_length Array.length_toList]
      rw [Array.size_push] at hrows hlast
      rw [addTo, Array.toList_modify, hrows, hlast, hfirst, List.append_assoc,
        List.singleton_append, Slot.modify_length Array.length_toList, slots_eq, Option.or_none]

end Node

theorem Tree.toList_slots (source : Bytes) (root : Node) :
    (Tree.ofNode source (some root)).slots.toList = root.slots none none none 0 :=
  (root.adds none #[]).trans (List.nil_append _)

end DotCompletion
