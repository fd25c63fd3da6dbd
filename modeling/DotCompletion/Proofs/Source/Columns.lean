import DotCompletion.Proofs.Source.Lines

/-!
# Columns in bytes and in UTF-16 units are the same columns

Behind each number of characters of a line, the column in bytes and the column in units lead to
one another. Between two of these places both conversions take the character whole, so neither
ever goes back when its argument goes on. Behind the last of them a column in units becomes one in
bytes that names no place of the source (`Source.columns_agree`). A column in units is told as a
number of 32 bits, so what is told of a line starts again from zero where the line has more units.
-/

namespace DotCompletion.Source

/-- The characters of a line, an invalid byte being one. -/
def characters (source : Bytes) (line : Int) : List Piece := Utf8.pieces (lineText source line)

/-- The bytes of the first characters of a line. -/
def bytesTo (source : Bytes) (line : Int) (n : Nat) : Nat :=
  sizeOf ((characters source line).take n)

/-- The units of the first characters of a line. -/
def unitsTo (source : Bytes) (line : Int) (n : Nat) : Nat :=
  unitsOf ((characters source line).take n)

theorem lineText_of_row {source row : Bytes} {n : Nat} (h : (rows source)[n]? = some row) :
    lineText source (n + 1) = row := by
  have hline : ((n : Int) + 1 - 1).toNat = n := by omega
  rw [getElem?_rows] at h
  obtain ⟨start, hstart, rfl⟩ := Option.map_eq_some_iff.mp h
  rw [lineText, hline, hstart]

/-- Units behind the end of a line lead to no place of the source. -/
theorem offset?_byteColumn_of_lt {source : Bytes} {line units : Int}
    (h : unitsOf (characters source line) < units) :
    offset? source line (byteColumn source line units) = none := by
  rw [← Option.not_isSome_iff_eq_none, isSome_offset?_iff]
  rintro ⟨n, column, row, rfl, hcolumn, hrow, hle⟩
  have hlength : sizeOf (characters source (n + 1)) = row.length := by
    rw [characters, lineText_of_row hrow]
    exact Utf8.sum_size_pieces row
  have hbehind := sizeOf_lt_bytesBefore h
  rw [byteColumn_eq, ← characters] at hcolumn
  omega

/-- No column of a line behind the last one leads to a place of the source. -/
theorem offset?_of_rows_lt {source : Bytes} {line : Int} (h : (rows source).length < line)
    (column : Int) : offset? source line column = none := by
  rw [← Option.not_isSome_iff_eq_none, isSome_offset?_iff]
  rintro ⟨n, _, row, rfl, -, hrow, -⟩
  obtain ⟨hn, -⟩ := List.getElem?_eq_some_iff.mp hrow
  omega

/-- Columns in bytes and in units say the same about the places of a line. -/
structure ColumnsAgree (source : Bytes) (line : Int) : Prop where
  /-- The bytes of the first characters are told as their units. -/
  character (n : Nat) : unitsTo source line n < 0x100000000 →
    (editorPosition source line (bytesTo source line n + 1)).character = unitsTo source line n
  /-- Of more units than fit a number of 32 bits the low bits are told. -/
  character_mod (n : Nat) :
    (editorPosition source line (bytesTo source line n + 1)).character =
      unitsTo source line n % 0x100000000
  /-- The units of the first characters lead behind their bytes. -/
  column (n : Nat) : byteColumn source line (unitsTo source line n) = bytesTo source line n + 1
  /-- A column is told by no more units than the line has bytes. -/
  character_le (column : Int) :
    (editorPosition source line column).character ≤ (lineText source line).length
  /-- On a line whose units fit, a later column in bytes is never told as an earlier one. -/
  character_mono (column column' : Int) : unitsOf (characters source line) < 0x100000000 →
    column ≤ column' →
      (editorPosition source line column).character ≤ (editorPosition source line column').character
  /-- A later column in units never leads to an earlier one in bytes. -/
  column_mono (units units' : Int) : units ≤ units' →
    byteColumn source line units ≤ byteColumn source line units'
  /-- Units that end inside a character, between the halves of a surrogate pair, lead behind it. -/
  inside (n : Nat) (units : Int) : unitsTo source line n < units →
    units ≤ unitsTo source line (n + 1) →
      byteColumn source line units = bytesTo source line (n + 1) + 1
  /-- Units behind the line's last character lead to no place of the source. -/
  behind_line (units : Int) : unitsOf (characters source line) < units →
    offset? source line (byteColumn source line units) = none
  /-- On a line behind the last one no units lead to a place of the source. -/
  behind_source (units : Int) : (rows source).length < line →
    offset? source line (byteColumn source line units) = none

theorem character_bytesTo (source : Bytes) (line : Int) (n : Nat) :
    (editorPosition source line (bytesTo source line n + 1)).character =
      unitsTo source line n % 0x100000000 := by
  have hwithin := unitsWithin_sizeOf ((characters source line).take n)
    ((characters source line).drop n)
  rw [List.take_append_drop] at hwithin
  rw [editorPosition, Int.add_sub_cancel]
  exact congrArg (· % 0x100000000) hwithin

/-- On every line of every source, columns in bytes and in UTF-16 units are inverse to one another
between its characters, as far as the units can be told in 32 bits, and what lies inside a character
or behind the end is settled alike. -/
theorem columns_agree (source : Bytes) (line : Int) : ColumnsAgree source line where
  character n hfits := by
    rw [character_bytesTo, Nat.mod_eq_of_lt hfits]
  character_mod := character_bytesTo source line
  column n := byteColumn_unitsOf (List.take_append_drop n (characters source line)).symm
  character_le column := by
    have hsize : sizeOf (characters source line) = (lineText source line).length :=
      Utf8.sum_size_pieces _
    calc (editorPosition source line column).character
        ≤ unitsWithin (column - 1) (characters source line) := Nat.mod_le _ _
      _ ≤ unitsOf (characters source line) := unitsWithin_le _ _
      _ ≤ sizeOf (characters source line) := unitsOf_le_sizeOf _
      _ = (lineText source line).length := hsize
  character_mono column column' hfits hle := by
    have htold (column : Int) : (editorPosition source line column).character =
        unitsWithin (column - 1) (characters source line) :=
      Nat.mod_eq_of_lt (Nat.lt_of_le_of_lt (unitsWithin_le _ _) hfits)
    rw [htold, htold]
    exact unitsWithin_mono (Int.sub_le_sub_right hle 1) _
  column_mono _ _ hle := by
    rw [byteColumn_eq, byteColumn_eq]
    exact Nat.succ_le_succ (bytesBefore_mono hle (characters source line))
  inside _ _ h hle := by
    rw [byteColumn_eq, ← characters, bytesBefore_inside h hle]
    rfl
  behind_line _ := offset?_byteColumn_of_lt
  behind_source _ h := offset?_of_rows_lt h _

/-- Two lines, the second with characters of one, two and four bytes, a stray byte and one more
letter. The third character is a surrogate pair. -/
def mixedLines : Bytes := Bytes.ofString "x\naé😀" ++ [0xFF] ++ Bytes.ofString "b"

theorem columns_agree_mixedLines :
    (editorPosition mixedLines 2 8).character = 4 ∧ byteColumn mixedLines 2 4 = 8 ∧
      byteColumn mixedLines 2 3 = 8 ∧
      (editorPosition mixedLines 2 9).character = 5 ∧ byteColumn mixedLines 2 5 = 9 ∧
      (editorPosition mixedLines 2 3).character ≤ (editorPosition mixedLines 2 5).character ∧
      offset? mixedLines 2 (byteColumn mixedLines 2 7) = none ∧
      offset? mixedLines 3 (byteColumn mixedLines 3 0) = none := by
  have h := columns_agree mixedLines 2
  have hbytes : bytesTo mixedLines 2 3 = 7 ∧ bytesTo mixedLines 2 4 = 8 := by decide +kernel
  obtain ⟨hfront, hpair, hbehind⟩ : unitsTo mixedLines 2 2 = 2 ∧ unitsTo mixedLines 2 3 = 4 ∧
      unitsTo mixedLines 2 4 = 5 := by decide +kernel
  have hall : unitsOf (characters mixedLines 2) = 6 := by decide +kernel
  have hastral := h.character 3 (by omega)
  have hstray := h.character 4 (by omega)
  have hcolumn := h.column 3
  have hcolumn' := h.column 4
  have hinside := h.inside 2 3 (by omega) (by rw [hpair]; decide)
  rw [hbytes.1, hpair] at hastral hcolumn
  rw [hbytes.2, hbehind] at hstray hcolumn'
  rw [hbytes.1] at hinside
  exact ⟨hastral, hcolumn, hinside, hstray, hcolumn', h.character_mono 3 5 (by omega) (by decide),
    h.behind_line 7 (by omega), (columns_agree mixedLines 3).behind_source 0 (by decide +kernel)⟩

end DotCompletion.Source
