import DotCompletion.Proofs.Grammar.Layout
import DotCompletion.Proofs.Tree.Numbering

/-!
# The leaf under a cursor

The leaf that is found covers the offset, or it begins there and no leaf before
it covers the offset. A leaf whose token covers the offset is found: the rows stand in the
order of their tokens, so no earlier leaf reaches as far (`Tree.leafAt?_of_covers`).
-/

namespace DotCompletion

namespace Slot

/-- The row is that of a leaf with text. -/
def IsLeaf (s : Slot) : Prop := s.first = none ∧ s.span.start.offset ≠ s.span.stop.offset

/-- The offset lies behind the beginning of the row and not behind its end. -/
def Covers (s : Slot) (offset : Int) : Prop :=
  (s.span.start.offset : Int) < offset ∧ offset ≤ s.span.stop.offset

/-- The row `found`, where the first one has number `id`, is that of a leaf that
covers the offset, or of one that begins there behind leaves that do not cover
it. -/
def FoundAt (offset : Int) (id : Nat) (rows : List Slot) (found : Nat) : Prop :=
  ∃ i s, rows[i]? = some s ∧ found = id + i ∧ s.IsLeaf ∧
    (s.Covers offset ∨ ((s.span.start.offset : Int) = offset ∧
      ∀ j < i, ∀ s', rows[j]? = some s' → s'.IsLeaf → ¬s'.Covers offset))

theorem FoundAt.cons {offset : Int} {id found : Nat} {rows : List Slot} {s : Slot}
    (hs : s.IsLeaf → ¬s.Covers offset) (h : FoundAt offset (id + 1) rows found) :
    FoundAt offset id (s :: rows) found := by
  obtain ⟨i, s', hs', rfl, hleaf, hcase⟩ := h
  refine ⟨i + 1, s', by rwa [List.getElem?_cons_succ], by omega, hleaf, hcase.imp_right ?_⟩
  rintro ⟨hstart, hearlier⟩
  refine ⟨hstart, fun j hj s'' hs'' => ?_⟩
  cases j with
  | zero =>
      rw [List.getElem?_cons_zero] at hs''
      cases hs''
      exact hs
  | succ j =>
      rw [List.getElem?_cons_succ] at hs''
      exact hearlier j (by omega) s'' hs''

end Slot

namespace Tree

open Slot (FoundAt)

theorem leafFrom_eq_some {offset : Int} {touching : Option Nat} {id found : Nat} {rows : List Slot}
    (h : leafFrom offset touching id rows = some found) :
    touching = some found ∨ FoundAt offset id rows found := by
  induction rows generalizing touching id with
  | nil => exact .inl h
  | cons s rows ih =>
      rw [leafFrom] at h
      split at h
      next hskip =>
          refine (ih h).imp_right (.cons fun hleaf => ?_)
          simp [hleaf.1, Span.isEmpty, hleaf.2] at hskip
      next hleaf =>
          simp only [Bool.or_eq_true, not_or, Option.not_isSome_iff_eq_none,
            Span.isEmpty, beq_iff_eq] at hleaf
          split at h
          next hcovers =>
              cases h
              exact .inr ⟨0, s, rfl, rfl, hleaf, .inl hcovers⟩
          next hcovers =>
              -- what touches the offset so far was found before, or is this leaf
              have htouching : (if (s.span.start.offset : Int) = offset then
                  touching <|> some id else touching) = some found →
                  touching = some found ∨ FoundAt offset id (s :: rows) found := by
                intro hfound
                split at hfound
                next hstart =>
                    cases touching with
                    | none =>
                        cases hfound
                        exact .inr ⟨0, s, rfl, rfl, hleaf,
                          .inr ⟨hstart, fun j hj => absurd hj (Nat.not_lt_zero j)⟩⟩
                    | some t => exact .inl hfound
                next => exact .inl hfound
              simp only at h
              split at h
              next => exact htouching h
              next =>
                  rcases ih h with hfound | hfound
                  · exact htouching hfound
                  · exact .inr (hfound.cons fun _ => hcovers)

/-- The leaf under an offset. -/
theorem leafAt?_eq_some {source : Bytes} {root : Node} {offset id : Nat}
    (h : (ofNode source (some root)).leafAt? offset = some id) :
    ∃ n above, Node.Numbered root id n above ∧ n.children = [] ∧ n.lo ≠ n.hi ∧
      ((n.lo < offset ∧ offset ≤ n.hi) ∨ (n.lo = offset ∧
        ∀ j m above', j < id → Node.Numbered root j m above' → m.children = [] → m.lo ≠ m.hi →
          ¬(m.lo < offset ∧ offset ≤ m.hi))) := by
  have hnumbers : ∀ id, ∀ row : List Node, (Node.numbers id row).head? = none ↔ row = [] := by
    intro id row
    cases row with
    | nil => simp [Node.numbers]
    | cons n row => simp [Node.numbers]
  rcases leafFrom_eq_some h with hnone | ⟨i, s, hs, rfl, hleaf, hcase⟩
  · cases hnone
  · rw [Nat.zero_add]
    have hslot : (ofNode source (some root)).slot? i = some s := by
      rw [slot?, ← Array.getElem?_toList]
      exact hs
    obtain ⟨n, above, hn⟩ := exists_numbered hslot
    obtain ⟨_, _, hrow⟩ := @slot?_eq source _ _ _ _ hn
    rw [hslot, Option.some.injEq] at hrow
    subst hrow
    refine ⟨n, above, hn, (hnumbers _ _).mp hleaf.1, hleaf.2, ?_⟩
    simp only [Slot.Covers] at hcase
    refine hcase.imp (fun hcovers => ?_) (fun hstart => ?_)
    · simp only [Node.lo, Node.hi]
      omega
    · obtain ⟨hlo, hearlier⟩ := hstart
      refine ⟨by simp only [Node.lo]; omega, fun j m above' hj hm hnil hne hcovers => ?_⟩
      obtain ⟨_, _, hslot'⟩ := hm.exists_slot
      refine hearlier j hj _ (by rwa [toList_slots]) ⟨(hnumbers _ _).mpr hnil, hne⟩ ?_
      simp only [Node.lo, Node.hi] at hcovers
      simp only
      omega

end Tree

/-! ## Rows in the order of their tokens -/

/-- The token of a row ends where that of another begins, or earlier. -/
def Slot.InFront (r s : Slot) : Prop :=
  ∀ u ∈ r.token, ∀ v ∈ s.token, u.kind ≠ .eof → v.kind ≠ .eof → u.hi ≤ v.lo

namespace Node

variable {source : Bytes} {n : Node}

theorem token_eq_none {m : Node} (h : n.Laid source) (hm : m ∈ n.children) : n.token = none := by
  cases htoken : n.token with
  | none => rfl
  | some t =>
      rw [(h.leaf t htoken).2.1] at hm
      cases hm

theorem mem_slotsAll {parent : Nat} {previous : Option Nat} {id : Nat} {row : List Node} {s : Slot}
    (h : s ∈ slotsAll parent previous id row) :
    ∃ m ∈ row, ∃ previous next id, s ∈ m.slots (some parent) previous next id := by
  induction row generalizing previous id with
  | nil => cases h
  | cons n row ih =>
      rw [slotsAll, List.mem_append] at h
      rcases h with h | h
      · exact ⟨n, List.mem_cons_self, _, _, id, h⟩
      · obtain ⟨m, hm, hs⟩ := ih h
        exact ⟨m, List.mem_cons_of_mem _ hm, hs⟩

theorem mem_yield_of_mem_slots {t : Token} (ht : t.kind ≠ .eof) :
    ∀ parent previous next id, ∀ s ∈ n.slots parent previous next id, t ∈ s.token →
      t ∈ n.yield := by
  induction n using Node.induct with
  | step n ih =>
      intro parent previous next id s hs htoken
      rw [slots_eq, List.mem_cons] at hs
      rw [yield_eq, List.mem_append]
      rcases hs with rfl | hs
      · left
        rw [Option.mem_toList, Option.filter_eq_some_iff]
        exact ⟨htoken, by simpa using ht⟩
      · obtain ⟨m, hm, _, _, id, hs⟩ := mem_slotsAll hs
        exact .inr (mem_yieldAll.mpr ⟨m, hm, ih m hm _ _ _ _ s hs htoken⟩)

theorem pairwise_slotsAll {parent : Nat} {previous : Option Nat} {id : Nat} {row : List Node}
    (hlaid : ∀ m ∈ row, m.Laid source)
    (hrow : ∀ m ∈ row, ∀ parent previous next id,
      (m.slots parent previous next id).Pairwise Slot.InFront)
    (hordered : row.Pairwise Before) :
    (slotsAll parent previous id row).Pairwise Slot.InFront := by
  induction row generalizing previous id with
  | nil => exact .nil
  | cons n row ih =>
      obtain ⟨hn, hlaid⟩ := List.forall_mem_cons.mp hlaid
      obtain ⟨hnrow, hrow⟩ := List.forall_mem_cons.mp hrow
      obtain ⟨hbefore, hordered⟩ := List.pairwise_cons.mp hordered
      rw [slotsAll, List.pairwise_append]
      refine ⟨hnrow _ _ _ _, ih hlaid hrow hordered, fun r hr s hs u hu v hv hukind hvkind => ?_⟩
      obtain ⟨m, hm, _, _, id', hs⟩ := mem_slotsAll hs
      have huyield := mem_yield_of_mem_slots hukind _ _ _ _ r hr hu
      have hvyield := mem_yield_of_mem_slots hvkind _ _ _ _ s hs hv
      exact Nat.le_trans ((hbefore m hm).tokens u huyield).1 ((hlaid m hm).covers v hvyield).1

theorem pairwise_slots (h : n.Every (Laid source)) :
    ∀ parent previous next id, (n.slots parent previous next id).Pairwise Slot.InFront := by
  induction n using Node.induct with
  | step n ih =>
      intro parent previous next id
      rw [slots_eq, List.pairwise_cons]
      constructor
      · intro s hs u hu
        obtain ⟨m, hm, _⟩ := mem_slotsAll hs
        rw [token_eq_none h.own hm] at hu
        cases hu
      · exact pairwise_slotsAll (fun m hm => (h.child hm).own) (fun m hm => ih m hm (h.child hm))
          h.own.ordered

end Node

namespace Tree

open Node (Numbered)

theorem leafFrom_append {offset : Int} {front back : List Slot} {s : Slot} (id : Nat)
    (hfront : ∀ r ∈ front, r.IsLeaf →
      (r.span.start.offset : Int) < offset ∧ (r.span.stop.offset : Int) < offset)
    (hleaf : s.IsLeaf) (hcovers : s.Covers offset) :
    leafFrom offset none id (front ++ s :: back) = some (id + front.length) := by
  induction front generalizing id with
  | nil =>
      rw [List.nil_append, leafFrom, if_neg (by simp [hleaf.1, Span.isEmpty, hleaf.2])]
      exact if_pos hcovers
  | cons r front ih =>
      obtain ⟨hr, hfront⟩ := List.forall_mem_cons.mp hfront
      have hmore := ih (id + 1) hfront
      rw [List.cons_append, leafFrom]
      split
      next => rw [hmore, List.length_cons, Nat.add_right_comm, Nat.add_assoc]
      next hr' =>
          have hbehind := hr (by simpa [Slot.IsLeaf, Span.isEmpty] using hr')
          rw [if_neg (by omega), if_neg (by omega), if_neg (by omega), hmore, List.length_cons,
            Nat.add_right_comm, Nat.add_assoc]

/-- The row of a leaf with text has a token of the source. -/
theorem exists_token_of_isLeaf {source : Bytes} {root : Node} {r : Slot}
    (hroot : root.Every (Node.Laid source)) (hr : r ∈ root.slots none none none 0) (hleaf : r.IsLeaf) :
    ∃ u, r.token = some u ∧ r.span = u.span ∧ u.kind ≠ .eof ∧ u.lo < u.hi := by
  obtain ⟨id, hid⟩ := List.mem_iff_getElem?.mp hr
  have hslot : (ofNode source (some root)).slot? id = some r := by
    rwa [slot?_ofNode]
  obtain ⟨n, above, hn⟩ := exists_numbered hslot
  obtain ⟨_, _, hrow⟩ := @slot?_eq source _ _ _ _ hn
  rw [hslot, Option.some.injEq] at hrow
  subst hrow
  have hn := (hn.every hroot).own
  have hnil : n.children = [] := by
    cases hchildren : n.children with
    | nil => rfl
    | cons m row => simp [Slot.IsLeaf, hchildren, Node.numbers] at hleaf
  cases htoken : n.token with
  | none =>
      have hpoint := hn.point htoken hnil
      exact absurd (congrArg Position.offset hpoint) hleaf.2
  | some u =>
      obtain ⟨hspan, -, hpart | rfl⟩ := hn.leaf u htoken
      · exact ⟨u, rfl, hspan, hpart.solid.kind, hpart.lo_lt_hi⟩
      · refine absurd ?_ hleaf.2
        rw [hspan]
        rfl

/-- The leaf of the token that covers an offset is found there. -/
theorem leafAt?_of_covers {source : Bytes} {root n : Node} {id offset : Nat}
    {above : List (Nat × Node)} {t : Token} (hroot : root.Every (Node.Laid source))
    (hn : Numbered root id n above) (htoken : n.token = some t) (hkind : t.kind ≠ .eof)
    (hlt : t.lo < offset) (hle : offset ≤ t.hi) :
    (ofNode source (some root)).leafAt? offset = some id := by
  obtain ⟨hspan, hnil, -⟩ := (hn.every hroot).own.leaf t htoken
  have hlo : n.span.start.offset = t.lo := by rw [hspan]; rfl
  have hhi : n.span.stop.offset = t.hi := by rw [hspan]; rfl
  obtain ⟨front, back, previous, next, hrows, hlength⟩ := hn.exists_rows
  rw [n.slots_eq, List.cons_append] at hrows
  have hordered := Node.pairwise_slots hroot none none none 0
  rw [hrows, List.pairwise_append] at hordered
  rw [leafAt?, toList_slots, hrows, ← hlength]
  refine (leafFrom_append 0 ?_ ?_ ?_).trans (by rw [Nat.zero_add])
  · intro r hr hleaf
    obtain ⟨u, hu, huspan, hukind, hlt'⟩ :=
      exists_token_of_isLeaf hroot (by rw [hrows]; exact List.mem_append_left _ hr) hleaf
    have hle' : u.hi ≤ t.lo :=
      hordered.2.2 r hr _ List.mem_cons_self u hu t htoken hukind hkind
    rw [huspan]
    simp only [Token.lo, Token.hi] at *
    omega
  · refine ⟨by rw [hnil]; rfl, ?_⟩
    simp only [hlo, hhi]
    omega
  · simp only [Slot.Covers, hlo, hhi]
    omega

end Tree

end DotCompletion
