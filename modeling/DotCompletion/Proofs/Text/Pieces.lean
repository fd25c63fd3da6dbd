import Mathlib.Algebra.BigOperators.Group.List.Basic
import Mathlib.Algebra.GroupWithZero.Nat
import DotCompletion.Text.Utf8

/-!
# Cutting text between characters

Bytes are read as characters from the left, and a character is never longer than the bytes that
announce it. Where a cut has an ASCII byte on one of its sides no character reaches over it, so
both sides are read apart as they are read together (`Utf8.pieces_append`).
-/

namespace DotCompletion

/-- No character reaches over the cut: one of the bytes beside it is ASCII, if there are two. -/
def Bytes.Seam (front back : Bytes) : Prop :=
  ∀ y ∈ front.getLast?, ∀ z ∈ back.head?, y < 0x80 ∨ z < 0x80

namespace Bytes.Seam

variable {front back : Bytes} {b : UInt8}

theorem nil_left (back : Bytes) : Seam [] back := nofun

theorem nil_right (front : Bytes) : Seam front [] := fun _ _ => nofun

theorem of_front (hb : b < 0x80) (front back : Bytes) : Seam (front ++ [b]) back := by
  intro y hy _ _
  rw [List.getLast?_concat] at hy
  cases hy
  exact .inl hb

theorem of_head (h : ∀ z ∈ back.head?, z < 0x80) (front : Bytes) : Seam front back :=
  fun _ _ z hz => .inr (h z hz)

theorem of_back (hb : b < 0x80) (front back : Bytes) : Seam front (b :: back) :=
  of_head (by simpa using hb) front

/-- More in front of the last byte makes no difference. -/
theorem append (h : Seam front back) (hne : front ≠ []) (more : Bytes) :
    Seam (more ++ front) back := by
  intro y hy
  rw [List.getLast?_append_of_ne_nil _ hne] at hy
  exact h y hy

theorem of_suffix {front' : Bytes} (h : Seam front back) (hsuffix : front' <:+ front) :
    Seam front' back := by
  obtain ⟨more, rfl⟩ := hsuffix
  rcases List.eq_nil_or_concat front' with rfl | ⟨_, _, rfl⟩
  · exact nil_left back
  · intro y hy
    refine h y ?_
    rwa [List.getLast?_append_of_ne_nil _ (by simp)]

theorem of_shorter {back' : Bytes} (h : Seam front back) (hshorter : back' <+: back) :
    Seam front back' := by
  obtain ⟨more, rfl⟩ := hshorter
  intro y hy z hz
  refine h y hy z ?_
  rw [List.head?_append, Option.mem_def.mp hz]
  rfl

theorem append_right (h : Seam front back) (hne : back ≠ []) (more : Bytes) :
    Seam front (back ++ more) := by
  intro y hy z hz
  refine h y hy z ?_
  cases back with
  | nil => exact absurd rfl hne
  | cons => exact hz

end Bytes.Seam

namespace Piece

theorem size_pos (p : Piece) : 0 < p.size := by
  cases p with
  | char c => exact c.utf8Size_pos
  | stray => exact Nat.one_pos

theorem units_pos (p : Piece) : 0 < p.units := by
  cases p with
  | char c =>
      rw [units]
      split <;> omega
  | stray => exact Nat.one_pos

end Piece

namespace Utf8

theorem continued_length {n value result : Nat} {rest : Bytes}
    (h : continued n value rest = some result) : n ≤ rest.length := by
  induction n generalizing value rest with
  | zero => exact Nat.zero_le _
  | succ n ih =>
      cases rest with
      | nil => cases h
      | cons b rest =>
          rw [continued] at h
          split at h
          next => exact Nat.succ_le_succ (ih h)
          next => cases h

/-- Each continuation byte appends a digit in base 64. -/
theorem continued_lt {n value result : Nat} {rest : Bytes}
    (h : continued n value rest = some result) : result < (value + 1) * 64 ^ n := by
  induction n generalizing value rest with
  | zero =>
      cases h
      omega
  | succ n ih =>
      cases rest with
      | nil => cases h
      | cons b rest =>
          rw [continued] at h
          split at h
          next hb =>
              have hlt : b.toNat < 0xC0 := UInt8.lt_iff_toNat_lt.mp hb.2
              calc result < (value * 64 + (b.toNat - 0x80) + 1) * 64 ^ n := ih h
                _ ≤ ((value + 1) * 64) * 64 ^ n := Nat.mul_le_mul_right _ (by omega)
                _ = (value + 1) * 64 ^ (n + 1) := by rw [Nat.mul_assoc, Nat.pow_succ']
          next => cases h

/-- An ASCII byte in front of the end keeps continuation bytes from coming out of what follows,
and so does one behind it. -/
theorem continued_append {rest back : Bytes}
    (h : (∀ z ∈ back.head?, z < 0x80) ∨ ∃ y ∈ rest, y < 0x80) (n value : Nat) :
    continued n value (rest ++ back) = continued n value rest := by
  induction rest generalizing n value with
  | nil =>
      cases n with
      | zero => simp only [continued]
      | succ n =>
          cases back with
          | nil => rfl
          | cons z back =>
              have hz : z < 0x80 := h.resolve_right nofun z rfl
              rw [List.nil_append, continued, continued, if_neg]
              exact fun hle => absurd (UInt8.lt_of_lt_of_le hz hle.1) (UInt8.lt_irrefl z)
  | cons b rest ih =>
      cases n with
      | zero => simp only [continued]
      | succ n =>
          rw [List.cons_append, continued, continued]
          split
          next hb =>
              refine ih (h.imp_right ?_) n _
              rintro ⟨y, hy, hlt⟩
              rcases List.mem_cons.mp hy with rfl | hy
              · exact absurd (UInt8.lt_of_lt_of_le hlt hb.1) (UInt8.lt_irrefl y)
              · exact ⟨y, hy, hlt⟩
          next => rfl

theorem char?_length {b : UInt8} {rest : Bytes} {c : Char} {n : Nat}
    (h : char? b rest = some (c, n)) : n ≤ rest.length := by
  simp only [char?, Option.bind_eq_bind, Option.bind_eq_some_iff] at h
  obtain ⟨⟨m, high, least⟩, -, value, hvalue, hchar⟩ := h
  split at hchar
  next =>
      cases hchar
      exact continued_length hvalue
  next => cases hchar

theorem toNat_ofNat {value : Nat} (h : value.isValidChar) : (Char.ofNat value).toNat = value := by
  rw [Char.ofNat, dif_pos h]
  rfl

theorem utf8Size_ofNat {value : Nat} (h : value.isValidChar) : (Char.ofNat value).utf8Size =
    if value < 0x80 then 1 else if value < 0x800 then 2 else if value < 0x10000 then 3 else 4 := by
  have hvalue : (Char.ofNat value).val.toNat = value := toNat_ofNat h
  simp only [Char.utf8Size, UInt32.le_iff_toNat_le, hvalue, UInt32.toNat_ofNatLT]
  repeat' split
  all_goals omega

/-- A lead byte that announces `m` bytes more carries as many bits as they leave open. -/
theorem lead?_cases {b : UInt8} {m high least : Nat} (h : lead? b = some (m, high, least)) :
    (m = 0 ∧ high < 0x80 ∧ least = 0) ∨ (m = 1 ∧ high < 0x20 ∧ least = 0x80) ∨
      (m = 2 ∧ high < 0x10 ∧ least = 0x800) ∨ (m = 3 ∧ high < 0x8 ∧ least = 0x10000) := by
  unfold lead? at h
  split at h
  next hb =>
      simp only [Option.some.injEq, Prod.mk.injEq] at h
      obtain ⟨rfl, rfl, rfl⟩ := h
      exact .inl ⟨rfl, UInt8.lt_iff_toNat_lt.mp hb, rfl⟩
  split at h
  next => cases h
  split at h
  next hb =>
      simp only [Option.some.injEq, Prod.mk.injEq] at h
      obtain ⟨rfl, rfl, rfl⟩ := h
      have hlt : b.toNat < 0xE0 := UInt8.lt_iff_toNat_lt.mp hb
      exact .inr (.inl ⟨rfl, by omega, rfl⟩)
  split at h
  next hb =>
      simp only [Option.some.injEq, Prod.mk.injEq] at h
      obtain ⟨rfl, rfl, rfl⟩ := h
      have hlt : b.toNat < 0xF0 := UInt8.lt_iff_toNat_lt.mp hb
      exact .inr (.inr (.inl ⟨rfl, by omega, rfl⟩))
  split at h
  next hb =>
      simp only [Option.some.injEq, Prod.mk.injEq] at h
      obtain ⟨rfl, rfl, rfl⟩ := h
      have hlt : b.toNat < 0xF8 := UInt8.lt_iff_toNat_lt.mp hb
      exact .inr (.inr (.inr ⟨rfl, by omega, rfl⟩))
  next => cases h

/-- A character has as many bytes as were read for it. -/
theorem char?_size {b : UInt8} {rest : Bytes} {c : Char} {n : Nat}
    (h : char? b rest = some (c, n)) : c.utf8Size = n + 1 := by
  simp only [char?, Option.bind_eq_bind, Option.bind_eq_some_iff] at h
  obtain ⟨⟨m, high, least⟩, hlead, value, hvalue, hchar⟩ := h
  split at hchar
  next hvalid =>
      cases hchar
      obtain ⟨hleast, hvalid⟩ := hvalid
      dsimp only at hvalue hleast
      have hlt := continued_lt hvalue
      rw [utf8Size_ofNat hvalid]
      rcases lead?_cases hlead with ⟨rfl, hhigh, rfl⟩ | ⟨rfl, hhigh, rfl⟩ | ⟨rfl, hhigh, rfl⟩ |
        ⟨rfl, hhigh, rfl⟩
      · rw [if_pos (by omega)]
      · rw [if_neg (by omega), if_pos (by omega)]
      · rw [if_neg (by omega), if_neg (by omega), if_pos (by omega)]
      · rw [if_neg (by omega), if_neg (by omega), if_neg (by omega)]
  next => cases hchar

theorem head_length (b : UInt8) (rest : Bytes) : (head b rest).2 ≤ rest.length := by
  unfold head
  split
  next hchar => exact char?_length hchar
  next => exact Nat.zero_le _

theorem head_size (b : UInt8) (rest : Bytes) : (head b rest).1.size = (head b rest).2 + 1 := by
  unfold head
  split
  next hchar => exact char?_size hchar
  next => rfl

/-- No byte is lost. -/
theorem sum_size_pieces (bytes : Bytes) : ((pieces bytes).map Piece.size).sum = bytes.length := by
  fun_induction pieces bytes with
  | case1 => rfl
  | case2 b rest ih =>
      have hle := head_length b rest
      rw [List.map_cons, List.sum_cons, ih, head_size, List.length_drop, List.length_cons]
      omega

theorem head_append {b : UInt8} {rest back : Bytes} (h : Bytes.Seam (b :: rest) back) :
    head b (rest ++ back) = head b rest := by
  have hcontinued : b < 0x80 ∨ (∀ z ∈ back.head?, z < 0x80) ∨ ∃ y ∈ rest, y < 0x80 := by
    by_cases hback : ∀ z ∈ back.head?, z < 0x80
    · exact .inr (.inl hback)
    · obtain ⟨z, hz, hlarge⟩ : ∃ z ∈ back.head?, ¬z < 0x80 := by simpa using hback
      have hlast := (h _ (List.getLast?_eq_getLast_of_ne_nil (List.cons_ne_nil b rest)) z
        hz).resolve_right hlarge
      rcases List.eq_nil_or_concat rest with rfl | ⟨front, y, rfl⟩
      · exact .inl hlast
      · exact .inr (.inr ⟨y, by simp, by simpa using hlast⟩)
  have hchar : char? b (rest ++ back) = char? b rest := by
    rcases hcontinued with hb | hcontinued
    · rw [char?, char?, lead?, if_pos hb]
      rfl
    · simp only [char?, continued_append hcontinued]
  rw [head, head, hchar]

/-- On both sides of a seam bytes are read as if the other side were not there. -/
theorem pieces_append {front back : Bytes} (h : Bytes.Seam front back) :
    pieces (front ++ back) = pieces front ++ pieces back := by
  fun_induction pieces front with
  | case1 => rfl
  | case2 b rest ih =>
      have hle := head_length b rest
      rw [List.cons_append, pieces, head_append h, List.drop_append_of_le_length hle,
        ih (h.of_suffix ((List.drop_suffix _ _).trans (List.suffix_cons _ _))), List.cons_append]

end Utf8

end DotCompletion
