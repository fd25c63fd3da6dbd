import DotCompletion.Proofs.Tree.LeafAt

/-!
# The search for a leaf is exact

The search goes through the rows once, remembers the first leaf that begins at
the offset, and ends at the first leaf behind it. In a table whose leaves lie
apart and in order nothing is missed that way (`Tree.leafFrom_eq`), and the
leaves of a parsed source lie so: whatever the offset, the leaf that covers it
is found, or else the one that begins there, or else none
(`Entry.leafAt_parse`).
-/

namespace DotCompletion

namespace Slot

/-- The row begins at the offset. -/
def Begins (s : Slot) (offset : Int) : Prop := (s.span.start.offset : Int) = offset

instance (s : Slot) : Decidable s.IsLeaf := inferInstanceAs (Decidable (_ ∧ _))

instance (s : Slot) (offset : Int) : Decidable (s.Covers offset) :=
  inferInstanceAs (Decidable (_ ∧ _))

instance (s : Slot) (offset : Int) : Decidable (s.Begins offset) :=
  inferInstanceAs (Decidable (_ = _))

/-- A leaf begins in front of its end. -/
def Proper (s : Slot) : Prop := s.IsLeaf → s.span.start.offset < s.span.stop.offset

/-- Of two leaves the first ends where the second begins, or earlier. -/
def Apart (r s : Slot) : Prop :=
  r.IsLeaf → s.IsLeaf → r.span.stop.offset ≤ s.span.start.offset

/-- The rows are those of leaves that lie apart and in order, and of other nodes. -/
structure InOrder (rows : List Slot) : Prop where
  proper : ∀ s ∈ rows, s.Proper
  apart : rows.Pairwise Apart

namespace InOrder

theorem tail {s : Slot} {rows : List Slot} (h : InOrder (s :: rows)) : InOrder rows :=
  ⟨fun r hr => h.proper r (List.mem_cons_of_mem _ hr), h.apart.tail⟩

/-- Nothing behind a leaf begins in front of its end. -/
theorem le_start {s r : Slot} {rows : List Slot} (h : InOrder (s :: rows)) (hs : s.IsLeaf)
    (hr : r ∈ rows) (hleaf : r.IsLeaf) : s.span.stop.offset ≤ r.span.start.offset :=
  (List.pairwise_cons.mp h.apart).1 r hr hs hleaf

/-- Two rows with leaves that both cover an offset, or both begin there, are one. -/
theorem unique {rows : List Slot} (h : InOrder rows) {i j : Nat} {r s : Slot} {offset : Int}
    (hr : rows[i]? = some r) (hs : rows[j]? = some s) (hrleaf : r.IsLeaf) (hsleaf : s.IsLeaf)
    (hboth : r.Covers offset ∧ s.Covers offset ∨ r.Begins offset ∧ s.Begins offset) : i = j := by
  obtain ⟨hi, rfl⟩ := List.getElem?_eq_some_iff.mp hr
  obtain ⟨hj, rfl⟩ := List.getElem?_eq_some_iff.mp hs
  have hapart := List.pairwise_iff_getElem.mp h.apart
  have hrproper := h.proper _ (List.getElem_mem hi) hrleaf
  have hsproper := h.proper _ (List.getElem_mem hj) hsleaf
  simp only [Covers, Begins] at hboth
  rcases Nat.lt_trichotomy i j with hlt | heq | hlt
  · have hle := hapart i j hi hj hlt hrleaf hsleaf
    omega
  · exact heq
  · have hle := hapart j i hj hi hlt hsleaf hrleaf
    omega

end InOrder

end Slot

namespace Tree

open Slot (InOrder)

/-- The number of the first row with a leaf that has a property, where the first
row has number `id`. -/
def firstLeaf? (p : Slot → Prop) [DecidablePred p] (id : Nat) (rows : List Slot) : Option Nat :=
  (rows.findIdx? fun s => s.IsLeaf ∧ p s).map (id + ·)

section

variable {p : Slot → Prop} [DecidablePred p] {id : Nat} {s : Slot} {rows : List Slot}

theorem firstLeaf?_cons : firstLeaf? p id (s :: rows) =
    if s.IsLeaf ∧ p s then some id else firstLeaf? p (id + 1) rows := by
  rw [firstLeaf?, firstLeaf?, List.findIdx?_cons]
  by_cases hs : s.IsLeaf ∧ p s
  · simp [hs]
  · simp only [hs, decide_false, Bool.false_eq_true, if_false, Option.map_map]
    congr 1
    funext i
    simp only [Function.comp_apply]
    omega

theorem firstLeaf?_eq_none :
    firstLeaf? p id rows = none ↔ ∀ s ∈ rows, s.IsLeaf → ¬p s := by
  simp [firstLeaf?, List.findIdx?_eq_none_iff]

theorem exists_of_firstLeaf? {found : Nat} (h : firstLeaf? p 0 rows = some found) :
    ∃ s, rows[found]? = some s ∧ s.IsLeaf ∧ p s := by
  obtain ⟨i, hi, rfl⟩ := Option.map_eq_some_iff.mp h
  obtain ⟨hlt, hs, -⟩ := List.findIdx?_eq_some_iff_getElem.mp hi
  rw [Nat.zero_add]
  exact ⟨rows[i], List.getElem?_eq_getElem hlt, of_decide_eq_true hs⟩

end

variable {offset : Int} {touching : Option Nat} {id : Nat} {s : Slot} {rows : List Slot}

theorem leafFrom_other (h : ¬s.IsLeaf) :
    leafFrom offset touching id (s :: rows) = leafFrom offset touching (id + 1) rows := by
  rw [leafFrom]
  refine if_pos ?_
  simpa [Slot.IsLeaf, Span.isEmpty, or_iff_not_imp_left, Option.isSome_iff_ne_none] using h

theorem leafFrom_leaf (h : s.IsLeaf) : leafFrom offset touching id (s :: rows) =
    if s.Covers offset then some id
    else if offset < s.span.start.offset then
      if s.Begins offset then touching.or (some id) else touching
    else leafFrom offset (if s.Begins offset then touching.or (some id) else touching) (id + 1)
      rows := by
  rw [leafFrom, if_neg (by simp [h.1, Span.isEmpty, h.2])]
  simp only [Option.orElse_eq_orElse, Option.orElse_eq_or]
  rfl

/-- Behind a leaf that begins behind the offset no leaf reaches back to it. -/
theorem firstLeaf?_of_ahead {p : Slot → Prop} [DecidablePred p] (h : InOrder (s :: rows))
    (hleaf : s.IsLeaf) (hahead : offset < s.span.start.offset)
    (hp : ∀ r, p r → (r.span.start.offset : Int) ≤ offset) : firstLeaf? p id rows = none := by
  rw [firstLeaf?_eq_none]
  intro r hr hrleaf hpr
  have hproper := h.proper s List.mem_cons_self hleaf
  have hle := h.le_start hleaf hr hrleaf
  have hstart := hp r hpr
  omega

/-- Among leaves that lie apart and in order the search finds the leaf that covers the offset,
or else what was remembered, or else the leaf that begins there. -/
theorem leafFrom_eq (h : InOrder rows) : leafFrom offset touching id rows =
      (firstLeaf? (·.Covers offset) id rows).or
        (touching.or (firstLeaf? (·.Begins offset) id rows)) := by
  induction rows generalizing touching id with
  | nil => simp [leafFrom, firstLeaf?]
  | cons s rows ih =>
      rw [firstLeaf?_cons, firstLeaf?_cons]
      by_cases hleaf : s.IsLeaf
      · rw [leafFrom_leaf hleaf]
        simp only [hleaf, true_and]
        split
        next => rw [Option.some_or]
        split
        next hahead =>
            have hbegins : ¬s.Begins offset := fun heq => by
              rw [Slot.Begins] at heq
              omega
            have hcovers := @firstLeaf?_of_ahead offset (id + 1) s rows (·.Covers offset) _ h hleaf
              hahead fun r hr => Int.le_of_lt hr.1
            have hbehind := @firstLeaf?_of_ahead offset (id + 1) s rows (·.Begins offset) _ h hleaf
              hahead fun r hr => Int.le_of_eq hr
            rw [if_neg hbegins, if_neg hbegins, hcovers, hbehind, Option.none_or, Option.or_none]
        next =>
            rw [ih h.tail]
            split
            next => rw [Option.or_assoc, Option.some_or]
            next => rfl
      · rw [leafFrom_other hleaf, if_neg fun hs => hleaf hs.1, if_neg fun hs => hleaf hs.1,
          ih h.tail]

/-! ## The leaves of a parsed source -/

/-- The node is a leaf with text that has a property. -/
def LeafWith (t : Tree) (p : Slot → Prop) (id : Nat) : Prop :=
  ∃ s, t.slot? id = some s ∧ s.IsLeaf ∧ p s

/-- The node is a leaf with text, and the offset lies behind its beginning and not behind its
end. -/
def LeafCovers (t : Tree) (offset : Int) (id : Nat) : Prop := t.LeafWith (·.Covers offset) id

/-- The node is a leaf with text that begins at the offset. -/
def LeafBegins (t : Tree) (offset : Int) (id : Nat) : Prop := t.LeafWith (·.Begins offset) id

theorem inOrder_of_laid {source : Bytes} {root : Node} (hroot : root.Every (Node.Laid source)) :
    InOrder (ofNode source (some root)).slots.toList := by
  rw [toList_slots]
  constructor
  · intro s hs hleaf
    obtain ⟨u, -, hspan, -, hlt⟩ := exists_token_of_isLeaf hroot hs hleaf
    rw [hspan]
    exact hlt
  · refine (Node.pairwise_slots hroot none none none 0).imp_of_mem ?_
    intro r s hr hs hfront hrleaf hsleaf
    obtain ⟨u, hu, huspan, hukind, -⟩ := exists_token_of_isLeaf hroot hr hrleaf
    obtain ⟨v, hv, hvspan, hvkind, -⟩ := exists_token_of_isLeaf hroot hs hsleaf
    rw [huspan, hvspan]
    exact hfront u hu v hv hukind hvkind

section

variable {t : Tree} {p : Slot → Prop} [DecidablePred p] {found : Nat}

theorem leafWith_of_firstLeaf? (h : firstLeaf? p 0 t.slots.toList = some found) :
    t.LeafWith p found := by
  obtain ⟨s, hs, hleaf, hp⟩ := exists_of_firstLeaf? h
  exact ⟨s, by rwa [slot?, ← Array.getElem?_toList], hleaf, hp⟩

theorem exists_firstLeaf? (h : t.LeafWith p found) :
    ∃ first, firstLeaf? p 0 t.slots.toList = some first := by
  obtain ⟨s, hs, hleaf, hp⟩ := h
  rw [slot?, ← Array.getElem?_toList] at hs
  rw [← Option.ne_none_iff_exists']
  intro hnone
  exact firstLeaf?_eq_none.mp hnone s (List.mem_of_getElem? hs) hleaf hp

/-- At most one leaf covers an offset, and at most one begins there. -/
theorem LeafWith.unique {p : Slot → Prop} {offset : Int} {id other : Nat}
    (hordered : InOrder t.slots.toList) (h : t.LeafWith p id) (hother : t.LeafWith p other)
    (hp : (∀ s, p s → s.Covers offset) ∨ (∀ s, p s → s.Begins offset)) : other = id := by
  obtain ⟨r, hr, hrleaf, hpr⟩ := h
  obtain ⟨s, hs, hsleaf, hps⟩ := hother
  rw [slot?, ← Array.getElem?_toList] at hr hs
  exact hordered.unique hs hr hsleaf hrleaf
    (hp.imp (fun hp => ⟨hp s hps, hp r hpr⟩) (fun hp => ⟨hp s hps, hp r hpr⟩))

theorem firstLeaf?_of_forall (h : ∀ id, ¬t.LeafWith p id) :
    firstLeaf? p 0 t.slots.toList = none := by
  cases hfound : firstLeaf? p 0 t.slots.toList with
  | none => rfl
  | some id => exact absurd (leafWith_of_firstLeaf? hfound) (h id)

end

end Tree

/-- The leaf under an offset of a parsed source is the only leaf that covers the offset. If no
leaf covers it, it is the only one that begins there, and if there is none either, nothing is
found. -/
theorem Entry.leafAt_parse (entry : Entry) (source : Bytes) (offset : Int) :
    (∀ id, (Tree.parse entry source).LeafCovers offset id →
      (Tree.parse entry source).leafAt? offset = some id ∧
        ∀ other, (Tree.parse entry source).LeafCovers offset other → other = id) ∧
    ((∀ id, ¬(Tree.parse entry source).LeafCovers offset id) →
      (∀ id, (Tree.parse entry source).LeafBegins offset id →
        (Tree.parse entry source).leafAt? offset = some id ∧
          ∀ other, (Tree.parse entry source).LeafBegins offset other → other = id) ∧
      ((∀ id, ¬(Tree.parse entry source).LeafBegins offset id) →
        (Tree.parse entry source).leafAt? offset = none)) := by
  generalize htree : Tree.parse entry source = t
  have hordered : Slot.InOrder t.slots.toList := by
    rw [← htree]
    exact Tree.inOrder_of_laid (entry.parse_laid source)
  have hfound : t.leafAt? offset = _ := Tree.leafFrom_eq hordered
  rw [Option.none_or] at hfound
  have hcovers {id other : Nat} (hid : t.LeafCovers offset id)
      (hother : t.LeafCovers offset other) : other = id :=
    hid.unique hordered hother (.inl fun _ hs => hs)
  have hbegins {id other : Nat} (hid : t.LeafBegins offset id)
      (hother : t.LeafBegins offset other) : other = id :=
    hid.unique hordered hother (.inr fun _ hs => hs)
  refine ⟨fun id hid => ⟨?_, fun _ => hcovers hid⟩,
    fun hnot => ⟨fun id hid => ⟨?_, fun _ => hbegins hid⟩, fun hnone => ?_⟩⟩
  · obtain ⟨first, hfirst⟩ := Tree.exists_firstLeaf? hid
    rw [hfound, hfirst, Option.some_or, hcovers hid (Tree.leafWith_of_firstLeaf? hfirst)]
  · obtain ⟨first, hfirst⟩ := Tree.exists_firstLeaf? hid
    rw [hfound, Tree.firstLeaf?_of_forall hnot, hfirst, Option.none_or,
      hbegins hid (Tree.leafWith_of_firstLeaf? hfirst)]
  · rw [hfound, Tree.firstLeaf?_of_forall hnot, Tree.firstLeaf?_of_forall hnone, Option.none_or]

end DotCompletion
