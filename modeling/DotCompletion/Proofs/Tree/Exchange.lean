import DotCompletion.Proofs.Token.Spaced
import DotCompletion.Proofs.Tree.Flattening

/-!
# Trees that differ in one place

Some neighbouring children of a node make way for others. The nodes that stay have the
same faces, parents and children as before, but those behind the exchange have other
numbers. `Exchange.counterpart` says where each of them is found, and what can be told of
it: the nodes around the exchange (`Exchange.Leads`) keep their faces only, all others are
alike with all that is below them.

The places of the nodes in the source may be others, as they are when the exchange is one
of texts and the new text has another length.
-/

namespace DotCompletion

namespace Node

/-- What a node shows by itself: its kind, and the word it was made from. -/
def face (n : Node) : NodeKind × Option Lexeme := (n.kind, n.token.map Token.lexeme)

/-- The part of a source that a node covers. -/
def textIn (source : Bytes) (n : Node) : Bytes := Tree.textOf ⟨source, #[]⟩ n.span

mutual

/-- Two nodes of different sources have the same faces and texts, and so have the nodes
below them. -/
def alike (source source' : Bytes) : Node → Node → Bool
  | ⟨kind, span, token, error, children⟩, n' =>
    face ⟨kind, span, token, error, children⟩ == n'.face
      && textIn source ⟨kind, span, token, error, children⟩ == textIn source' n'
      && allAlike source source' children n'.children

/-- The nodes of two rows are alike one by one. -/
def allAlike (source source' : Bytes) : List Node → List Node → Bool
  | [], row' => row'.isEmpty
  | _ :: _, [] => false
  | n :: row, n' :: row' => alike source source' n n' && allAlike source source' row row'

end

variable {source source' : Bytes} {n n' : Node} {row row' : List Node}

theorem alike_iff : alike source source' n n' = true ↔
    (n.face = n'.face ∧ n.textIn source = n'.textIn source') ∧
      allAlike source source' n.children n'.children = true := by
  cases n
  simp only [alike, Bool.and_eq_true, beq_iff_eq]

theorem allAlike_iff : allAlike source source' row row' = true ↔
    List.Forall₂ (fun n n' => alike source source' n n' = true) row row' := by
  induction row generalizing row' with
  | nil => simp [allAlike]
  | cons n row ih => cases row' <;> simp [allAlike, ih]

theorem size_of_alike (h : alike source source' n n' = true) : n'.size = n.size := by
  induction n using Node.induct generalizing n' with
  | step n ih =>
      obtain ⟨-, hchildren⟩ := alike_iff.mp h
      rw [size_eq, size_eq, Nat.add_right_cancel_iff]
      generalize n.children = row at ih hchildren
      generalize n'.children = row' at hchildren
      rw [allAlike_iff] at hchildren
      induction hchildren with
      | nil => rfl
      | cons hm _ ihrow =>
          obtain ⟨ihm, ih⟩ := List.forall_mem_cons.mp ih
          rw [sizeAll_cons, sizeAll_cons, ihm hm, ihrow ih]

theorem sizeAll_of_allAlike (h : allAlike source source' row row' = true) :
    sizeAll row' = sizeAll row := by
  rw [allAlike_iff] at h
  induction h with
  | nil => rfl
  | cons hm _ ih => rw [sizeAll_cons, sizeAll_cons, size_of_alike hm, ih]

theorem numbers_of_allAlike (h : allAlike source source' row row' = true) (id : Nat) :
    numbers id row' = numbers id row := by
  rw [allAlike_iff] at h
  induction h generalizing id with
  | nil => rfl
  | cons hm _ ih => rw [numbers, numbers, size_of_alike hm, ih]

/-- Where a node stands in a row, one like it stands in a row that is alike. -/
theorem allAlike_split {front back : List Node} {m : Node}
    (h : allAlike source source' (front ++ m :: back) row' = true) :
    ∃ front' m' back', row' = front' ++ m' :: back' ∧
      allAlike source source' front front' = true ∧ alike source source' m m' = true ∧
      allAlike source source' back back' = true := by
  induction front generalizing row' with
  | nil =>
      cases row' with
      | nil => cases h
      | cons m' back' =>
          rw [List.nil_append, allAlike, Bool.and_eq_true] at h
          exact ⟨[], m', back', rfl, rfl, h⟩
  | cons n front ih =>
      cases row' with
      | nil => cases h
      | cons n' row' =>
          rw [List.cons_append, allAlike, Bool.and_eq_true] at h
          obtain ⟨front', m', back', rfl, hfront, hm⟩ := ih h.2
          exact ⟨n' :: front', m', back', rfl, by rw [allAlike, h.1, hfront]; rfl, hm⟩

theorem le_of_mem_numbers {id i : Nat} (h : i ∈ numbers id row) :
    id ≤ i ∧ i < id + sizeAll row := by
  obtain ⟨front, m, back, rfl, rfl⟩ := mem_numbers h
  have hpos := m.size_pos
  rw [sizeAll_append, sizeAll_cons]
  omega

/-- A node of a row made of two stands in one of them. -/
theorem split_append {front back first second : List Node} {m : Node}
    (h : first ++ second = front ++ m :: back) :
    (∃ behind, first = front ++ m :: behind ∧ back = behind ++ second) ∨
      ∃ ahead, front = first ++ ahead ∧ second = ahead ++ m :: back := by
  rcases List.append_eq_append_iff.mp h with ⟨ahead, rfl, rfl⟩ | ⟨behind, rfl, hbehind⟩
  · exact .inr ⟨ahead, rfl, rfl⟩
  · rcases List.cons_eq_append_iff.mp hbehind with ⟨rfl, rfl⟩ | ⟨behind, rfl, rfl⟩
    · exact .inr ⟨[], by simp, rfl⟩
    · exact .inl ⟨behind, rfl, rfl⟩

/-- Two nodes of a row are the same, or one stands behind the other with all below it. -/
theorem apart_of_split {front back front' back' : List Node} {m m' : Node}
    (h : front ++ m :: back = front' ++ m' :: back') :
    sizeAll front = sizeAll front' ∨ sizeAll front + m.size ≤ sizeAll front' ∨
      sizeAll front' + m'.size ≤ sizeAll front := by
  rcases split_append h with ⟨behind, rfl, -⟩ | ⟨ahead, rfl, hrest⟩
  · right
    right
    rw [sizeAll_append, sizeAll_cons]
    omega
  · cases ahead with
    | nil => exact .inl (by rw [List.append_nil])
    | cons k ahead =>
        obtain ⟨rfl, -⟩ := List.cons.inj hrest
        right
        left
        rw [sizeAll_append, sizeAll_cons]
        omega

end Node

/-- Neighbouring children of a node make way for others. -/
structure Exchange where
  /-- The number of the node. -/
  spot : Nat
  /-- The number of the first node that goes, and of the first one that comes. -/
  start : Nat
  /-- How many nodes go, those below the children included. -/
  gone : Nat
  /-- How many nodes come. -/
  come : Nat
deriving DecidableEq

namespace Exchange

open Node

variable (x : Exchange)

/-- The number that a node has behind the exchange. -/
def move (i : Nat) : Nat := if i < x.start then i else i - x.gone + x.come

/-- The node with the number does not go. -/
def Stays (i : Nat) : Prop := i < x.start ∨ x.start + x.gone ≤ i

/-- Neither a node nor one below it takes part in the exchange, or is the node
whose children do. -/
def Apart (id : Nat) (n : Node) : Prop :=
  (id + n.size ≤ x.spot ∨ x.spot < id) ∧ (id + n.size ≤ x.start ∨ x.start + x.gone ≤ id)

/-- The second node is the first one but for the exchange, which takes place
somewhere below it. The number is that of the first node in its tree. -/
inductive Leads (source source' : Bytes) : Nat → Node → Node → Prop
  | here {n n' : Node} {front old back front' new back' : List Node}
      (hface : n.face = n'.face)
      (hold : n.children = front ++ (old ++ back)) (hnew : n'.children = front' ++ (new ++ back'))
      (hfront : allAlike source source' front front' = true)
      (hback : allAlike source source' back back' = true)
      (hstart : x.start = x.spot + 1 + sizeAll front) (hgone : x.gone = sizeAll old)
      (hcome : x.come = sizeAll new) : Leads source source' x.spot n n'
  | inner {id : Nat} {n n' m m' : Node} {front back front' back' : List Node}
      (hface : n.face = n'.face)
      (hold : n.children = front ++ m :: back) (hnew : n'.children = front' ++ m' :: back')
      (hfront : allAlike source source' front front' = true)
      (hm : Leads source source' (id + 1 + sizeAll front) m m')
      (hback : allAlike source source' back back' = true) : Leads source source' id n n'

/-- What a node that stays has to do with its counterpart. -/
inductive Stands (source source' : Bytes) (id : Nat) (n n' : Node) : Prop
  | apart (hapart : x.Apart id n) (halike : alike source source' n n' = true)
  | leads (h : x.Leads source source' id n n')

variable {x : Exchange} {source source' : Bytes} {root root' n n' m : Node} {id i j : Nat}
  {above : List (Nat × Node)} {row row' front back : List Node}

/-! ## Numbers -/

theorem move_of_lt (h : i < x.start) : x.move i = i := if_pos h

theorem move_of_le (h : x.start + x.gone ≤ i) : x.move i = i - x.gone + x.come :=
  if_neg (by omega)

theorem move_injective (hi : x.Stays i) (hj : x.Stays j) (h : x.move i = x.move j) : i = j := by
  unfold move at h
  unfold Stays at hi hj
  split at h <;> split at h <;> omega

theorem map_move_of_le (h : id + sizeAll row ≤ x.start) :
    (numbers id row).map x.move = numbers id row := by
  rw [List.map_congr_left fun i hi => move_of_lt ?_, List.map_id']
  have hlt := (le_of_mem_numbers hi).2
  omega

theorem map_move_of_ge (h : x.start + x.gone ≤ id) :
    (numbers id row).map x.move = numbers (x.move id) row := by
  induction row generalizing id with
  | nil => rfl
  | cons m row ih =>
      have hnext : x.move (id + m.size) = x.move id + m.size := by
        rw [move_of_le h, move_of_le (by omega)]
        omega
      rw [numbers, numbers, List.map_cons, ih (by omega), hnext]

theorem Leads.bounds (h : x.Leads source source' id n n') :
    (id ≤ x.spot ∧ x.spot < x.start ∧ x.start + x.gone ≤ id + n.size) ∧
      n'.size + x.gone = n.size + x.come := by
  induction h with
  | here hface hold hnew hfront hback hstart hgone hcome =>
      have hfront := sizeAll_of_allAlike hfront
      have hback := sizeAll_of_allAlike hback
      rw [size_eq, size_eq, hold, hnew]
      simp only [sizeAll_append]
      omega
  | inner hface hold hnew hfront hm hback ih =>
      have hfront := sizeAll_of_allAlike hfront
      have hback := sizeAll_of_allAlike hback
      rw [size_eq, size_eq, hold, hnew]
      simp only [sizeAll_append, sizeAll_cons]
      omega

theorem Leads.move_eq (h : x.Leads source source' id n n') : x.move id = id :=
  move_of_lt (by have hbounds := h.bounds; omega)

theorem Stands.face (h : x.Stands source source' id n n') : n.face = n'.face := by
  rcases h with ⟨-, halike⟩ | ⟨h⟩
  · exact (alike_iff.mp halike).1.1
  · cases h with
    | here hface => exact hface
    | inner hface => exact hface

/-! ## Counterparts -/

/-- What is below a node that stands apart stands apart. -/
theorem Apart.child (h : x.Apart id n) (hsplit : n.children = front ++ m :: back) :
    x.Apart (id + 1 + sizeAll front) m := by
  have hsize := n.size_eq
  rw [hsplit, sizeAll_append, sizeAll_cons] at hsize
  unfold Apart at h ⊢
  omega

/-- The node that stands behind `front` in a row has a counterpart among the children of `n'`. The
number is that of the parent. -/
def Meets (x : Exchange) (source source' : Bytes) (id : Nat) (front : List Node)
    (m n' : Node) : Prop :=
  ∃ front' m' back', n'.children = front' ++ m' :: back' ∧
    x.move id + 1 + sizeAll front' = x.move (id + 1 + sizeAll front) ∧
    x.Stands source source' (id + 1 + sizeAll front) m m'

/-- The children of a node that stands apart have counterparts. -/
theorem Apart.meets (h : x.Apart id n) (halike : alike source source' n n' = true)
    (hsplit : n.children = front ++ m :: back) : x.Meets source source' id front m n' := by
  have hsize := n.size_eq
  have hpos := m.size_pos
  obtain ⟨-, hchildren⟩ := alike_iff.mp halike
  rw [hsplit] at hchildren hsize
  obtain ⟨front', m', back', hsplit', hfront, hm, -⟩ := allAlike_split hchildren
  refine ⟨front', m', back', hsplit', ?_, .apart (h.child hsplit) hm⟩
  rw [sizeAll_append, sizeAll_cons] at hsize
  rw [sizeAll_of_allAlike hfront]
  unfold Apart at h
  unfold move
  split <;> split <;> omega

/-- A child in front of those that lead to the exchange has a counterpart. -/
theorem meets_ahead {ahead ahead' rest : List Node}
    (hahead : allAlike source source' ahead ahead' = true) (hnew : n'.children = ahead' ++ rest)
    (hsplit : ahead = front ++ m :: back) (hid : x.move id = id)
    (hspot : id = x.spot ∨ id + 1 + sizeAll ahead ≤ x.spot)
    (hstart : id + 1 + sizeAll ahead ≤ x.start) : x.Meets source source' id front m n' := by
  have hpos := m.size_pos
  rw [hsplit] at hahead
  obtain ⟨front', m', back', rfl, hfront, hm, -⟩ := allAlike_split hahead
  rw [hsplit, sizeAll_append, sizeAll_cons] at hspot hstart
  refine ⟨front', m', back' ++ rest, by simp [hnew], ?_, .apart ?_ hm⟩
  · rw [hid, sizeAll_of_allAlike hfront, move_of_lt (by omega)]
  · unfold Apart
    omega

/-- A child behind those that lead to the exchange has a counterpart. -/
theorem meets_behind {rest rest' behind behind' : List Node}
    (hbehind : allAlike source source' behind behind' = true)
    (hnew : n'.children = rest' ++ behind') (hsplit : behind = front ++ m :: back)
    (hid : x.move id = id) (hspot : x.spot < x.start)
    (hstart : x.start + x.gone ≤ id + 1 + sizeAll rest)
    (hrest : sizeAll rest' + x.gone = sizeAll rest + x.come) :
    x.Meets source source' id (rest ++ front) m n' := by
  rw [hsplit] at hbehind
  obtain ⟨front', m', back', rfl, hfront, hm, -⟩ := allAlike_split hbehind
  refine ⟨rest' ++ front', m', back', by simp [hnew], ?_, .apart ?_ hm⟩
  · rw [hid, sizeAll_append, sizeAll_append, move_of_le (by omega), sizeAll_of_allAlike hfront]
    omega
  · rw [sizeAll_append]
    unfold Apart
    omega

/-- A child of a node that stays goes, which takes place at one node only, or it has a
counterpart among the children of the counterpart. -/
theorem Stands.child (h : x.Stands source source' id n n')
    (hsplit : n.children = front ++ m :: back) :
    (id = x.spot ∧ x.start ≤ id + 1 + sizeAll front ∧
        id + 1 + sizeAll front + m.size ≤ x.start + x.gone) ∨
      x.Meets source source' id front m n' := by
  rcases h with ⟨hapart, halike⟩ | ⟨h⟩
  · exact .inr (hapart.meets halike hsplit)
  · have hid := h.move_eq
    cases h with
    | @here _ _ ahead old behind ahead' new behind' hface hold hnew hahead hbehind hstart hgone
        hcome =>
        have hsize := sizeAll_of_allAlike hahead
        rw [hold] at hsplit
        rcases split_append hsplit with ⟨_, hrow, -⟩ | ⟨front, rfl, hrest⟩
        · exact .inr (meets_ahead hahead hnew hrow hid (.inl rfl) (by omega))
        · rcases split_append hrest with ⟨_, rfl, -⟩ | ⟨front, rfl, hrow⟩
          · rw [sizeAll_append, sizeAll_cons] at hgone
            rw [sizeAll_append]
            exact .inl ⟨rfl, by omega, by omega⟩
          · right
            rw [← List.append_assoc] at hnew ⊢
            refine meets_behind hbehind hnew hrow hid (by omega) ?_ ?_
            · rw [sizeAll_append]
              omega
            · rw [sizeAll_append, sizeAll_append]
              omega
    | @inner _ _ _ k k' ahead behind ahead' behind' hface hold hnew hahead hk hbehind =>
        right
        have hbounds := hk.bounds
        have hsize := sizeAll_of_allAlike hahead
        rw [hold] at hsplit
        rcases split_append hsplit with ⟨_, hrow, -⟩ | ⟨front, rfl, hrest⟩
        · exact meets_ahead hahead hnew hrow hid (.inr (by omega)) (by omega)
        · cases front with
          | nil =>
              obtain ⟨rfl, rfl⟩ := List.cons.inj hrest
              rw [List.append_nil]
              exact ⟨ahead', k', behind', hnew, by rw [hid, hk.move_eq, hsize], .leads hk⟩
          | cons _ front =>
              obtain ⟨rfl, hrow⟩ := List.cons.inj hrest
              rw [List.append_cons] at hnew ⊢
              refine meets_behind hbehind hnew hrow hid (by omega) ?_ ?_
              · rw [sizeAll_append, sizeAll_cons, sizeAll_nil]
                omega
              · rw [sizeAll_append, sizeAll_append, sizeAll_cons, sizeAll_cons, sizeAll_nil]
                omega

theorem Stands.stays (h : x.Stands source source' id n n') : x.Stays id := by
  have hpos := n.size_pos
  rcases h with ⟨hapart, -⟩ | ⟨h⟩
  · unfold Apart at hapart
    unfold Stays
    omega
  · have hbounds := h.bounds
    exact .inl (by omega)

/-- A node goes with all below it, or it has a counterpart, and so have the nodes around it. -/
theorem gone_or_counterpart (hroot : x.Leads source source' 0 root root')
    (h : Numbered root id n above) :
    (x.start ≤ id ∧ id + n.size ≤ x.start + x.gone) ∨
      ∃ n' above', Numbered root' (x.move id) n' above' ∧ x.Stands source source' id n n' ∧
        above'.map Prod.fst = (above.map Prod.fst).map x.move ∧
        ∀ a ∈ above.map Prod.fst, x.Stays a := by
  induction h with
  | root =>
      right
      rw [hroot.move_eq]
      exact ⟨root', [], .root, .leads hroot, rfl, nofun⟩
  | @child id n m above front back _ hsplit ih =>
      rcases ih with hgone | ⟨n', above', hn', hstands, habove, hstay⟩
      · left
        have hsize := n.size_eq
        rw [hsplit, sizeAll_append, sizeAll_cons] at hsize
        omega
      · refine (hstands.child hsplit).imp And.right ?_
        rintro ⟨front', m', back', hsplit', hmove, hm⟩
        refine ⟨m', (x.move id, n') :: above', hmove ▸ .child hn' hsplit', hm, ?_, ?_⟩
        · rw [List.map_cons, List.map_cons, List.map_cons, habove]
        · rw [List.map_cons, List.forall_mem_cons]
          exact ⟨hstands.stays, hstay⟩

theorem counterpart (hroot : x.Leads source source' 0 root root')
    (h : Numbered root id n above) (hstays : x.Stays id) :
    ∃ n' above', Numbered root' (x.move id) n' above' ∧ x.Stands source source' id n n' ∧
      above'.map Prod.fst = (above.map Prod.fst).map x.move ∧
      ∀ a ∈ above.map Prod.fst, x.Stays a := by
  refine (gone_or_counterpart hroot h).resolve_left fun hgone => ?_
  have hpos := n.size_pos
  unfold Stays at hstays
  omega

/-- The children of the counterpart are those of the node, unless some of them go. -/
theorem Stands.numbers (h : x.Stands source source' id n n') (hspot : id ≠ x.spot) :
    numbers (x.move id + 1) n'.children = (numbers (id + 1) n.children).map x.move := by
  have hsize := n.size_eq
  rcases h with ⟨hapart, halike⟩ | ⟨h⟩
  · rw [numbers_of_allAlike (alike_iff.mp halike).2]
    rcases hapart.2 with hle | hge
    · rw [move_of_lt (by omega), map_move_of_le (by omega)]
    · have hnext : x.move (id + 1) = x.move id + 1 := by
        rw [move_of_le hge, move_of_le (by omega)]
        omega
      rw [map_move_of_ge (by omega), hnext]
  · have hbounds := h.bounds
    rw [h.move_eq]
    cases h with
    | here => exact absurd rfl hspot
    | @inner _ _ _ k k' before behind before' behind' hface hold hnew hfront hk hback =>
        have hinner := hk.bounds
        have hfront' := sizeAll_of_allAlike hfront
        have hnumber : x.move (id + 1 + sizeAll before) = id + 1 + sizeAll before :=
          move_of_lt (by omega)
        have hnext : x.move (id + 1 + sizeAll before + k.size) =
            id + 1 + sizeAll before + k'.size := by
          rw [move_of_le (by omega)]
          omega
        rw [hold, hnew, numbers_append, numbers_append, Node.numbers, Node.numbers,
          List.map_append, List.map_cons, map_move_of_le (by omega), map_move_of_ge (by omega),
          numbers_of_allAlike hfront, numbers_of_allAlike hback, hfront', hnumber, hnext]

/-- Nothing below a node that stands apart is exchanged. -/
theorem Stands.alike (h : x.Stands source source' id n n') (hapart : x.Apart id n) :
    alike source source' n n' = true := by
  rcases h with ⟨-, halike⟩ | ⟨h⟩
  · exact halike
  · have hbounds := h.bounds
    unfold Apart at hapart
    omega

/-- What leads to the exchange leads to the node whose children are exchanged. -/
theorem Leads.exists_spot (h : x.Leads source source' id n n') (hn : Numbered root id n above)
    {P : Node → Prop} (hP : n.Every P) :
    ∃ m m' inner, Numbered root x.spot m (inner ++ above) ∧
      x.Leads source source' x.spot m m' ∧ P m := by
  induction h generalizing above with
  | here hface hold hnew hfront hback hstart hgone hcome =>
      exact ⟨_, _, [], hn, .here hface hold hnew hfront hback hstart hgone hcome, hP.own⟩
  | @inner id n n' k _ _ _ _ _ _ hold _ _ _ _ ih =>
      obtain ⟨m, m', inner, hm, hleads, hP⟩ := ih (.child hn hold) (hP.child (by simp [hold]))
      exact ⟨m, m', inner ++ [(id, n)], by simpa using hm, hleads, hP⟩

/-- Among the children of the spot, those in front of the exchange and those behind it stay. -/
theorem Leads.numbers (h : x.Leads source source' x.spot n n') :
    ∃ front old new back, numbers (x.spot + 1) n.children = front ++ (old ++ back) ∧
      numbers (x.spot + 1) n'.children = front.map x.move ++ (new ++ back.map x.move) ∧
      (∀ i ∈ front, i < x.start) ∧ (∀ i ∈ old, x.start ≤ i ∧ i < x.start + x.gone) ∧
      (∀ i ∈ new, x.start ≤ i ∧ i < x.start + x.come) ∧ ∀ i ∈ back, x.start + x.gone ≤ i := by
  generalize hid : x.spot = id at h
  cases h with
  | inner _ _ _ _ hm _ =>
      have hbounds := hm.bounds
      omega
  | @here _ _ front old back front' new back' hface hold hnew hfront hback hstart hgone hcome =>
      have hfront' := sizeAll_of_allAlike hfront
      refine ⟨Node.numbers (x.spot + 1) front, Node.numbers x.start old,
        Node.numbers x.start new, Node.numbers (x.start + x.gone) back, ?_, ?_, ?_, ?_, ?_, ?_⟩
      · rw [hold, numbers_append, numbers_append, ← hstart, ← hgone]
      · have hnext : x.move (x.start + x.gone) = x.start + x.come := by
          rw [move_of_le (Nat.le_refl _)]
          omega
        rw [hnew, numbers_append, numbers_append, numbers_of_allAlike hfront, hfront', ← hstart,
          ← hcome, numbers_of_allAlike hback, map_move_of_le (by omega),
          map_move_of_ge (Nat.le_refl _), hnext]
      · intro i hi
        have hlt := (le_of_mem_numbers hi).2
        omega
      · intro i hi
        rw [hgone]
        exact le_of_mem_numbers hi
      · intro i hi
        rw [hcome]
        exact le_of_mem_numbers hi
      · exact fun i hi => (le_of_mem_numbers hi).1

/-! ## Finding the exchange -/

/-- Look for the exchange by which the second node comes from the first: at the node that a path
leads to, the `gone` children behind the first `kept` ones make way for `come` others. -/
def find? (source source' : Bytes) (kept gone come : Nat) :
    List Nat → Nat → Node → Node → Option Exchange
  | [], id, n, n' =>
    if n.face = n'.face
        ∧ allAlike source source' (n.children.take kept) (n'.children.take kept) = true
        ∧ allAlike source source' (n.children.drop (kept + gone))
          (n'.children.drop (kept + come)) = true then
      some ⟨id, id + 1 + sizeAll (n.children.take kept),
        sizeAll ((n.children.drop kept).take gone), sizeAll ((n'.children.drop kept).take come)⟩
    else none
  | i :: path, id, n, n' =>
    match n.children[i]?, n'.children[i]? with
    | some m, some m' =>
      if n.face = n'.face
          ∧ allAlike source source' (n.children.take i) (n'.children.take i) = true
          ∧ allAlike source source' (n.children.drop (i + 1)) (n'.children.drop (i + 1)) = true then
        find? source source' kept gone come path (id + 1 + sizeAll (n.children.take i)) m m'
      else none
    | _, _ => none

theorem split_of_getElem? {i : Nat} (h : row[i]? = some m) :
    row = row.take i ++ m :: row.drop (i + 1) := by
  obtain ⟨hlt, rfl⟩ := List.getElem?_eq_some_iff.mp h
  rw [← List.drop_eq_getElem_cons hlt, List.take_append_drop]

/-- What is found is such an exchange. -/
theorem leads_of_find? {kept gone come : Nat} {path : List Nat}
    (h : find? source source' kept gone come path id n n' = some x) :
    x.Leads source source' id n n' := by
  induction path generalizing id n n' with
  | nil =>
      rw [find?] at h
      split at h
      next hcheck =>
          cases h
          obtain ⟨hface, hfront, hback⟩ := hcheck
          refine .here hface ?_ ?_ hfront hback rfl rfl rfl
          · rw [← List.drop_drop, List.take_append_drop, List.take_append_drop]
          · rw [← List.drop_drop, List.take_append_drop, List.take_append_drop]
      next => cases h
  | cons i path ih =>
      rw [find?] at h
      split at h
      next m m' hm hm' =>
          split at h
          next hcheck =>
              obtain ⟨hface, hfront, hback⟩ := hcheck
              exact .inner hface (split_of_getElem? hm) (split_of_getElem? hm') hfront (ih h) hback
          next => cases h
      next => cases h

/-! ## Walks -/

theorem foldr_map {α β : Type} {f : α → β} {g : α → List α → List α} {g' : β → List β → List β}
    {l : List α} (h : ∀ a ∈ l, ∀ behind, g' (f a) (behind.map f) = (g a behind).map f)
    (behind : List α) : (l.map f).foldr g' (behind.map f) = (l.foldr g behind).map f := by
  induction l with
  | nil => rfl
  | cons a l ih =>
      obtain ⟨ha, hl⟩ := List.forall_mem_cons.mp h
      rw [List.map_cons, List.foldr_cons, List.foldr_cons, ih hl, ha]

/-- The walks through a node that stands apart and through its counterpart list the same nodes. -/
theorem walkTo_eq {n' : Node} {above' : List (Nat × Node)} (hn : Numbered root id n above)
    (hn' : Numbered root' (x.move id) n' above') (hapart : x.Apart id n)
    (halike : alike source source' n n' = true) (enter : NodeKind → Bool) {levels levels' : Nat}
    (hlevels : n.size ≤ levels) (hlevels' : n.size ≤ levels') (behind : List Nat) :
    (Tree.ofNode source' (some root')).walkTo enter levels' (x.move id) (behind.map x.move) =
      ((Tree.ofNode source (some root)).walkTo enter levels id behind).map x.move := by
  induction n using Node.induct generalizing id n' above above' levels levels' behind with
  | step n ih =>
      have hsize := n.size_eq
      obtain ⟨levels, rfl⟩ := Nat.exists_eq_succ_of_ne_zero (Nat.ne_zero_of_lt
        (Nat.lt_of_lt_of_le n.size_pos hlevels))
      obtain ⟨levels', rfl⟩ := Nat.exists_eq_succ_of_ne_zero (Nat.ne_zero_of_lt
        (Nat.lt_of_lt_of_le n.size_pos hlevels'))
      have hstands : x.Stands source source' id n n' := .apart hapart halike
      have hspot : id ≠ x.spot := by
        unfold Apart at hapart
        omega
      have hrow : ∀ c ∈ Node.numbers (id + 1) n.children, ∀ behind,
          (Tree.ofNode source' (some root')).walkTo enter levels' (x.move c) (behind.map x.move) =
            ((Tree.ofNode source (some root)).walkTo enter levels c behind).map x.move := by
        intro c hc behind
        obtain ⟨front, m, back, hsplit, rfl⟩ := mem_numbers hc
        have hle : m.size ≤ sizeAll n.children := size_le_sizeAll (by simp [hsplit])
        obtain ⟨hspot', -⟩ | ⟨front', m', back', hsplit', hmove, hm⟩ := hstands.child hsplit
        · exact absurd hspot' hspot
        · have hchild := hapart.child hsplit
          have hm' := Numbered.child hn' hsplit'
          rw [hmove] at hm'
          exact ih m (by simp [hsplit]) (.child hn hsplit) hm' hchild (hm.alike hchild)
            (by omega) (by omega) behind
      obtain ⟨_, _, hslot⟩ := @Tree.slot?_eq source _ _ _ _ hn
      obtain ⟨_, _, hslot'⟩ := @Tree.slot?_eq source' _ _ _ _ hn'
      have hkind : n.kind = n'.kind := congrArg Prod.fst hstands.face
      rw [Tree.walkTo, Tree.walkTo, hslot, hslot', Tree.children_eq hn, Tree.children_eq hn',
        hstands.numbers hspot]
      simp only [hkind, List.map_cons]
      split
      · rw [foldr_map hrow]
      · rfl

end Exchange

end DotCompletion
