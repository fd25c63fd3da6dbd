import DotCompletion.Proofs.Text.Pieces

/-!
# Encoded text is read back

The bytes of a text are read as the characters of the text (`Utf8.toText_ofString`).
-/

namespace DotCompletion.Utf8

/-- The byte that carries six bits behind a lead byte. -/
def continuation (n : Nat) : UInt8 := UInt8.ofNat (n + 0x80)

/-- The value of digits in base 64 behind what is known. -/
def appended (value : Nat) (digits : List Nat) : Nat := digits.foldl (· * 64 + ·) value

theorem continued_continuation {digits : List Nat} (h : ∀ n ∈ digits, n < 0x40) (value : Nat)
    (rest : Bytes) : continued digits.length value (digits.map continuation ++ rest) =
      some (appended value digits) := by
  induction digits generalizing value with
  | nil => simp only [List.length_nil, continued, appended, List.foldl_nil]
  | cons n digits ih =>
      have hn := h n List.mem_cons_self
      have hbyte : (continuation n).toNat = n + 0x80 := by
        rw [continuation, UInt8.toNat_ofNat', Nat.mod_eq_of_lt (by omega)]
      have hbounds : 0x80 ≤ continuation n ∧ continuation n < 0xC0 := by
        rw [UInt8.le_iff_toNat_le, UInt8.lt_iff_toNat_lt, hbyte]
        exact ⟨Nat.le_add_left _ _, Nat.add_lt_add_right hn 0x80⟩
      rw [List.length_cons, List.map_cons, List.cons_append, continued, if_pos hbounds, hbyte,
        Nat.add_sub_cancel, ih fun m hm => h m (List.mem_cons_of_mem n hm)]
      rfl

theorem lead?_one : ∀ n < 0x80, lead? (UInt8.ofNat n) = some (0, n, 0) := by decide

theorem lead?_two : ∀ n < 0x20, lead? (UInt8.ofNat (n + 0xC0)) = some (1, n, 0x80) := by decide

theorem lead?_three : ∀ n < 0x10, lead? (UInt8.ofNat (n + 0xE0)) = some (2, n, 0x800) := by decide

theorem lead?_four : ∀ n < 0x8, lead? (UInt8.ofNat (n + 0xF0)) = some (3, n, 0x10000) := by decide

theorem char?_of_lead {c : Char} {b : UInt8} {digits : List Nat} {high least : Nat}
    (hlead : lead? b = some (digits.length, high, least)) (hdigits : ∀ n ∈ digits, n < 0x40)
    (hvalue : appended high digits = c.toNat) (hleast : least ≤ c.toNat) (rest : Bytes) :
    char? b (digits.map continuation ++ rest) = some (c, digits.length) := by
  have hvalid : c.toNat.isValidChar := c.valid
  simp only [char?, hlead, continued_continuation hdigits, hvalue, Option.bind_eq_bind,
    Option.bind_some]
  rw [if_pos ⟨hleast, hvalid⟩, Char.ofNat_toNat]

/-- How a character is encoded: the high bits in a lead byte, the others in sixes behind it. -/
theorem utf8EncodeChar_eq (c : Char) : String.utf8EncodeChar c =
    if c.toNat ≤ 0x7F then [UInt8.ofNat c.toNat]
    else if c.toNat ≤ 0x7FF then
      UInt8.ofNat (c.toNat / 64 % 32 + 0xC0) :: [c.toNat % 64].map continuation
    else if c.toNat ≤ 0xFFFF then
      UInt8.ofNat (c.toNat / 4096 % 16 + 0xE0) ::
        [c.toNat / 64 % 64, c.toNat % 64].map continuation
    else
      UInt8.ofNat (c.toNat / 262144 % 8 + 0xF0) ::
        [c.toNat / 4096 % 64, c.toNat / 64 % 64, c.toNat % 64].map continuation :=
  rfl

/-- The bytes of a character are read as the character, whatever stands behind them. -/
theorem char?_encode (c : Char) : ∃ (b : UInt8) (digits : List Nat),
    String.utf8EncodeChar c = b :: digits.map continuation ∧
      ∀ rest, char? b (digits.map continuation ++ rest) = some (c, digits.length) := by
  have hlast : c.toNat < 0x110000 := by
    have hvalid : c.toNat.isValidChar := c.valid
    rw [Nat.isValidChar] at hvalid
    omega
  rw [utf8EncodeChar_eq]
  split
  next hone =>
      refine ⟨_, [], rfl, char?_of_lead (lead?_one c.toNat ?_) ?_ ?_ ?_⟩
      · omega
      · exact List.forall_mem_nil _
      · rfl
      · exact Nat.zero_le _
  split
  next =>
      refine ⟨_, _, rfl, char?_of_lead (lead?_two (c.toNat / 64 % 32) ?_) ?_ ?_ ?_⟩
      · omega
      · simp [Nat.mod_lt]
      · simp only [appended, List.foldl_cons, List.foldl_nil]
        omega
      · omega
  split
  next =>
      refine ⟨_, _, rfl, char?_of_lead (lead?_three (c.toNat / 4096 % 16) ?_) ?_ ?_ ?_⟩
      · omega
      · simp [Nat.mod_lt]
      · simp only [appended, List.foldl_cons, List.foldl_nil]
        omega
      · omega
  next =>
      refine ⟨_, _, rfl, char?_of_lead (lead?_four (c.toNat / 262144 % 8) ?_) ?_ ?_ ?_⟩
      · omega
      · simp [Nat.mod_lt]
      · simp only [appended, List.foldl_cons, List.foldl_nil]
        omega
      · omega

theorem pieces_encode (c : Char) (rest : Bytes) :
    pieces (String.utf8EncodeChar c ++ rest) = .char c :: pieces rest := by
  obtain ⟨b, digits, hencode, hchar⟩ := char?_encode c
  have hdrop : (digits.map continuation ++ rest).drop digits.length = rest :=
    List.drop_left' (List.length_map _)
  rw [hencode, List.cons_append, pieces, head, hchar]
  exact congrArg (Piece.char c :: pieces ·) hdrop

theorem pieces_ofString (text : String) :
    pieces (Bytes.ofString text) = text.toList.map Piece.char := by
  rw [Bytes.ofString]
  induction text.toList with
  | nil => rw [List.flatMap_nil, List.map_nil, pieces]
  | cons c cs ih => rw [List.flatMap_cons, pieces_encode, ih, List.map_cons]

/-- A text is what its bytes are read as. -/
theorem toText_ofString (text : String) : toText (Bytes.ofString text) = text := by
  rw [toText, pieces_ofString, List.map_map]
  exact (congrArg String.ofList (List.map_id _)).trans String.ofList_toList

end DotCompletion.Utf8
