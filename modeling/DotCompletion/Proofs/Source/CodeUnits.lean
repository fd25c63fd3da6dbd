import DotCompletion.Proofs.Text.Pieces
import DotCompletion.Source.Units

/-!
# Bytes and UTF-16 units of a row of characters

The units of a row of characters are those of its UTF-16 text. Between two characters the units in
front and the bytes in front are found from one another, and of a character of which the units
reach a part all bytes are counted. Neither count goes back when what it is counted from goes on.
-/

namespace DotCompletion

/-- A character in UTF-16: beyond the basic plane a surrogate pair. -/
def Utf16.encode (c : Char) : List UInt16 :=
  if c.toNat < 0x10000 then [.ofNat c.toNat]
  else
    [.ofNat (0xD800 + (c.toNat - 0x10000) / 0x400), .ofNat (0xDC00 + (c.toNat - 0x10000) % 0x400)]

namespace Piece

/-- A piece in UTF-16; a stray byte is shown as a single unit. -/
def utf16 : Piece → List UInt16
  | char c => Utf16.encode c
  | stray _ => [0xFFFD]

theorem length_utf16 (p : Piece) : p.utf16.length = p.units := by
  cases p with
  | stray => rfl
  | char c =>
      rw [utf16, Utf16.encode, units]
      split
      next hbasic => rw [if_neg (by omega), List.length_singleton]
      next hastral =>
          rw [if_pos (by omega)]
          rfl

/-- Two units take four bytes. -/
theorem units_le_size (p : Piece) : p.units ≤ p.size := by
  cases p with
  | stray => exact Nat.le_refl _
  | char c =>
      have hpos := c.utf8Size_pos
      have hsize : (Char.ofNat c.toNat).utf8Size = _ := Utf8.utf8Size_ofNat c.valid
      rw [Char.ofNat_toNat] at hsize
      rw [units, size]
      split
      next hastral =>
          rw [hsize, if_neg (by omega), if_neg (by omega), if_neg (by omega)]
          omega
      next => exact hpos

end Piece

namespace Source

/-- The units of a row of characters: the length of its UTF-16 text. -/
def unitsOf (row : List Piece) : Nat := (row.flatMap Piece.utf16).length

/-- The bytes of a row of characters. -/
def sizeOf (row : List Piece) : Nat := (row.map Piece.size).sum

variable {row front back : List Piece} {units bytes : Int}

theorem sizeOf_append : sizeOf (front ++ back) = sizeOf front + sizeOf back := by
  rw [sizeOf, List.map_append, List.sum_append, sizeOf, sizeOf]

theorem sizeOf_cons (p : Piece) : sizeOf (p :: row) = p.size + sizeOf row := by
  rw [sizeOf, List.map_cons, List.sum_cons, sizeOf]

theorem unitsOf_append : unitsOf (front ++ back) = unitsOf front + unitsOf back := by
  rw [unitsOf, List.flatMap_append, List.length_append, unitsOf, unitsOf]

theorem unitsOf_cons (p : Piece) : unitsOf (p :: row) = p.units + unitsOf row := by
  rw [unitsOf, List.flatMap_cons, List.length_append, p.length_utf16, unitsOf]

/-- No row has more units than bytes. -/
theorem unitsOf_le_sizeOf (row : List Piece) : unitsOf row ≤ sizeOf row := by
  induction row with
  | nil => exact Nat.le_refl _
  | cons p row ih =>
      rw [unitsOf_cons, sizeOf_cons]
      exact Nat.add_le_add p.units_le_size ih

/-! ## Units from bytes -/

theorem unitsWithin_sizeOf (front back : List Piece) :
    unitsWithin (sizeOf front) (front ++ back) = unitsOf front := by
  induction front with
  | nil => cases back <;> rfl
  | cons p front ih =>
      have hpos := p.size_pos
      have hrest : (sizeOf (p :: front) : Int) - p.size = sizeOf front := by
        rw [sizeOf_cons]
        omega
      have hsize : (0 : Int) < sizeOf (p :: front) := by
        rw [sizeOf_cons]
        omega
      rw [List.cons_append, unitsWithin, if_pos hsize, hrest, ih, unitsOf_cons]

theorem unitsWithin_mono {bytes' : Int} (h : bytes ≤ bytes') (row : List Piece) :
    unitsWithin bytes row ≤ unitsWithin bytes' row := by
  induction row generalizing bytes bytes' with
  | nil => exact Nat.le_refl _
  | cons p row ih =>
      by_cases hpos : 0 < bytes
      · rw [unitsWithin, if_pos hpos, unitsWithin, if_pos (Int.lt_of_lt_of_le hpos h)]
        exact Nat.add_le_add_left (ih (Int.sub_le_sub_right h _)) _
      · rw [unitsWithin, if_neg hpos]
        exact Nat.zero_le _

theorem unitsWithin_le (bytes : Int) (row : List Piece) : unitsWithin bytes row ≤ unitsOf row := by
  induction row generalizing bytes with
  | nil => exact Nat.le_refl _
  | cons p row ih =>
      rw [unitsWithin, unitsOf_cons]
      split
      next => exact Nat.add_le_add_left (ih _) _
      next => exact Nat.zero_le _

/-- Of two beginnings of a row, the one with fewer bytes has fewer units. -/
theorem unitsOf_mono {front' back' : List Piece} (heq : front ++ back = front' ++ back')
    (hle : sizeOf front ≤ sizeOf front') : unitsOf front ≤ unitsOf front' := by
  rw [← unitsWithin_sizeOf front back, ← unitsWithin_sizeOf front' back', heq]
  exact unitsWithin_mono (Int.ofNat_le.mpr hle) _

/-! ## Bytes from units -/

/-- The bytes in front of a column in units: those of the characters that are reached, and one
for each unit behind the last character. -/
def bytesBefore (units : Int) (row : List Piece) : Nat :=
  (reach units row).1 + (units - (reach units row).2).toNat

theorem byteColumn_eq (source : Bytes) (line units : Int) :
    byteColumn source line units =
      bytesBefore units (Utf8.pieces (lineText source line)) + 1 := by
  rw [byteColumn, bytesBefore]
  omega

theorem bytesBefore_nil (units : Int) : bytesBefore units [] = units.toNat := by
  rw [bytesBefore, reach]
  omega

theorem bytesBefore_of_nonpos (h : units ≤ 0) (row : List Piece) : bytesBefore units row = 0 := by
  have hreach : reach units row = (0, 0) := by
    cases row with
    | nil => rfl
    | cons => rw [reach, if_neg (by omega)]
  rw [bytesBefore, hreach]
  omega

theorem bytesBefore_cons (h : 0 < units) (p : Piece) (row : List Piece) :
    bytesBefore units (p :: row) = p.size + bytesBefore (units - p.units) row := by
  rw [bytesBefore, bytesBefore, reach, if_pos h]
  simp only
  omega

theorem bytesBefore_mono {units' : Int} (h : units ≤ units') (row : List Piece) :
    bytesBefore units row ≤ bytesBefore units' row := by
  induction row generalizing units units' with
  | nil =>
      rw [bytesBefore_nil, bytesBefore_nil]
      omega
  | cons p row ih =>
      by_cases hpos : 0 < units
      · rw [bytesBefore_cons hpos, bytesBefore_cons (Int.lt_of_lt_of_le hpos h)]
        exact Nat.add_le_add_left (ih (Int.sub_le_sub_right h _)) _
      · rw [bytesBefore_of_nonpos (Int.not_lt.mp hpos)]
        exact Nat.zero_le _

/-- Characters of which the units reach all or go past are all in front. -/
theorem bytesBefore_append (h : unitsOf front ≤ units) (back : List Piece) :
    bytesBefore units (front ++ back) =
      sizeOf front + bytesBefore (units - unitsOf front) back := by
  induction front generalizing units with
  | nil =>
      change bytesBefore units back = 0 + bytesBefore (units - (0 : Nat)) back
      rw [Nat.zero_add, Int.natCast_zero, Int.sub_zero]
  | cons p front ih =>
      have hpos := p.units_pos
      rw [unitsOf_cons] at h
      have hrest : units - (p.units + unitsOf front : Nat) = units - p.units - unitsOf front := by
        omega
      rw [List.cons_append, bytesBefore_cons (by omega), ih (by omega), sizeOf_cons, unitsOf_cons,
        hrest, Nat.add_assoc]

theorem bytesBefore_unitsOf (front back : List Piece) :
    bytesBefore (unitsOf front) (front ++ back) = sizeOf front := by
  rw [bytesBefore_append (Int.le_refl _), bytesBefore_of_nonpos (by omega), Nat.add_zero]

/-- A character of which the units reach a part is in front as a whole. -/
theorem bytesBefore_inside {n : Nat} (h : unitsOf (row.take n) < units)
    (hle : units ≤ unitsOf (row.take (n + 1))) :
    bytesBefore units row = sizeOf (row.take (n + 1)) := by
  rw [List.take_add_one] at hle ⊢
  cases hp : row[n]? with
  | none =>
      rw [hp, Option.toList_none, List.append_nil] at hle
      omega
  | some p =>
      have hrow : row = row.take n ++ p :: row.drop (n + 1) := by
        conv => lhs; rw [← List.take_append_drop n row, List.drop_eq_getElem?_toList_append, hp]
        rfl
      have hunits : unitsOf [p] = p.units := by rw [unitsOf_cons]; rfl
      have hsize : sizeOf [p] = p.size := Nat.add_zero _
      rw [hp, Option.toList_some, unitsOf_append, hunits] at hle
      rw [Option.toList_some, sizeOf_append, hsize]
      conv => lhs; rw [hrow]
      rw [bytesBefore_append (Int.le_of_lt h), bytesBefore_cons (by omega),
        bytesBefore_of_nonpos (by omega), Nat.add_zero]

/-- Units that go past a row are a byte each. -/
theorem sizeOf_lt_bytesBefore (h : unitsOf row < units) : sizeOf row < bytesBefore units row := by
  have hall := bytesBefore_append (Int.le_of_lt h) []
  rw [List.append_nil, bytesBefore_nil] at hall
  omega

end Source

end DotCompletion
