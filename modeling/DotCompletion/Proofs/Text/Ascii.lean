import DotCompletion.Proofs.Text.Pieces

/-!
# ASCII in encoded text

A byte below 128 is a character of its own wherever it stands: no longer encoding has such a byte
(`eq_of_mem_utf8EncodeChar`), and no other piece is read where one stands (`Utf8.head_cases`). So
an ASCII character is in a text if and only if its byte is.
-/

namespace DotCompletion

/-- A byte below 128 in the encoding of a character is the whole encoding. -/
theorem toNat_eq_of_mem_utf8EncodeChar {b : UInt8} {c : Char} (h : b ∈ String.utf8EncodeChar c)
    (hb : b.toNat < 128) : c.toNat = b.toNat := by
  have hlarge (n : Nat) (hlo : 128 ≤ n) (hhi : n < 256) : b ≠ UInt8.ofNat n := by
    rintro rfl
    rw [UInt8.toNat_ofNat_of_lt' hhi] at hb
    omega
  simp only [String.utf8EncodeChar] at h
  split at h
  next hsmall =>
      rw [List.mem_singleton] at h
      rw [h, UInt8.toNat_ofNat_of_lt' (Nat.lt_of_le_of_lt hsmall (by decide))]
      rfl
  next =>
      -- all bytes of a longer encoding are large
      exfalso
      split at h
      · simp only [List.mem_cons, List.not_mem_nil, or_false] at h
        rcases h with h | h
        all_goals exact hlarge _ (by omega) (by omega) h
      · split at h
        · simp only [List.mem_cons, List.not_mem_nil, or_false] at h
          rcases h with h | h | h
          all_goals exact hlarge _ (by omega) (by omega) h
        · simp only [List.mem_cons, List.not_mem_nil, or_false] at h
          rcases h with h | h | h | h
          all_goals exact hlarge _ (by omega) (by omega) h

/-- So an ASCII character is the only one with its byte in the encoding. -/
theorem eq_of_mem_utf8EncodeChar {c d : Char} (hc : c.toNat < 128)
    (h : c.toUInt8 ∈ String.utf8EncodeChar d) : d = c := by
  have hbyte : c.toUInt8.toNat = c.toNat := by
    rw [Char.toUInt8, UInt32.toNat_toUInt8]
    exact Nat.mod_eq_of_lt (Nat.lt_trans hc (by decide))
  have hnat := toNat_eq_of_mem_utf8EncodeChar h (hbyte.trans_lt hc)
  exact Char.ext (UInt32.toNat_inj.mp (hnat.trans hbyte))

namespace Bytes

theorem mem_of_holds {b : UInt8} {part bytes : Bytes} (h : holds (b :: part) bytes = true) :
    b ∈ bytes := by
  induction bytes with
  | nil => cases h
  | cons a bytes ih =>
      rw [holds, Bool.or_eq_true, List.isPrefixOf_cons_cons, Bool.and_eq_true, beq_iff_eq] at h
      rcases h with ⟨rfl, -⟩ | h
      · exact List.mem_cons_self
      · exact List.mem_cons_of_mem _ (ih h)

/-- The byte of an ASCII character stands only in the encoding of a text that has the character. -/
theorem mem_of_mem_ofString {c : Char} (hc : c.toNat < 128) {text : String}
    (h : c.toUInt8 ∈ ofString text) : c ∈ text.toList := by
  obtain ⟨d, hd, hbyte⟩ := List.mem_flatMap.mp h
  rwa [← eq_of_mem_utf8EncodeChar hc hbyte]

end Bytes

namespace Utf8

theorem continued_large {n value result : Nat} {rest : Bytes}
    (h : continued n value rest = some result) : ∀ y ∈ rest.take n, 0x80 ≤ y := by
  induction n generalizing value rest with
  | zero => simp
  | succ n ih =>
      cases rest with
      | nil => cases h
      | cons b rest =>
          rw [continued] at h
          split at h
          next hb =>
              rw [List.take_succ_cons]
              exact List.forall_mem_cons.mpr ⟨hb.1, ih h⟩
          next => cases h

/-- A lead byte outside ASCII announces a character outside ASCII. -/
theorem lead?_large {b : UInt8} {m high least : Nat} (hb : ¬b < 0x80)
    (h : lead? b = some (m, high, least)) : 0x80 ≤ least := by
  rw [lead?, if_neg hb] at h
  split at h
  next => cases h
  repeat' split at h
  all_goals
    simp only [Option.some.injEq, Prod.mk.injEq, reduceCtorEq] at h
  all_goals omega

/-- A piece is the character of an ASCII byte, or its character and all its bytes are outside
ASCII. -/
theorem head_cases (b : UInt8) (rest : Bytes) :
    (b < 0x80 ∧ head b rest = (.char (Char.ofNat b.toNat), 0)) ∨
      (0x80 ≤ b ∧ 0x80 ≤ (head b rest).1.toChar.toNat ∧
        ∀ y ∈ rest.take (head b rest).2, 0x80 ≤ y) := by
  by_cases hb : b < 0x80
  · have hlt : b.toNat < 0x80 := UInt8.lt_iff_toNat_lt.mp hb
    have hvalid : b.toNat.isValidChar := .inl (by omega)
    refine .inl ⟨hb, ?_⟩
    simp [head, char?, lead?, hb, continued, hvalid]
  · refine .inr ⟨UInt8.not_lt.mp hb, ?_⟩
    rw [head]
    split
    next hchar =>
        simp only [char?, Option.bind_eq_bind, Option.bind_eq_some_iff] at hchar
        obtain ⟨⟨m, high, least⟩, hlead, value, hvalue, hchar⟩ := hchar
        split at hchar
        next hvalid =>
            cases hchar
            refine ⟨?_, continued_large hvalue⟩
            rw [Piece.toChar, toNat_ofNat hvalid.2]
            exact Nat.le_trans (lead?_large hb hlead) hvalid.1
        next => cases hchar
    next => exact ⟨(by decide : 0x80 ≤ '\uFFFD'.toNat), by simp⟩

/-- An ASCII character is read only where its byte stands. -/
theorem mem_of_mem_pieces {p : Piece} {bytes : Bytes} (h : p ∈ pieces bytes)
    (hp : p.toChar.toNat < 0x80) : UInt8.ofNat p.toChar.toNat ∈ bytes := by
  fun_induction pieces bytes with
  | case1 => cases h
  | case2 b rest ih =>
      rcases List.mem_cons.mp h with rfl | h
      · obtain ⟨hb, hhead⟩ | ⟨-, hlarge, -⟩ := head_cases b rest
        · have hlt : b.toNat < 0x80 := UInt8.lt_iff_toNat_lt.mp hb
          rw [hhead, Piece.toChar, toNat_ofNat (.inl (by omega)), UInt8.ofNat_toNat]
          exact List.mem_cons_self
        · exact absurd hp (Nat.not_lt.mpr hlarge)
      · exact List.mem_cons_of_mem _ (List.mem_of_mem_drop (ih h))

end Utf8

end DotCompletion
