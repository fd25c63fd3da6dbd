import Mathlib.Data.List.DropRight
import DotCompletion.Proofs.Source.Units

/-!
# Lines and columns name every place once

Cut at its newlines a source falls into rows, one more than it has newlines. A line and a column
lead to an offset if and only if they are those of a byte of a row or of the end of a row. The
line of an offset counts the newlines in front of it and the column counts the bytes behind the
last of them, so no place has two names and every place has one (`Source.offset?_bijective`).
-/

namespace DotCompletion.Source

/-- The lines of a source without their newlines. The last one may be empty. -/
def rows (source : Bytes) : List Bytes := source.splitOn '\n'.toUInt8

/-- The line of the place behind some bytes. -/
def lineBehind (before : Bytes) : Nat := before.count '\n'.toUInt8 + 1

/-- The column of the place behind some bytes. -/
def columnBehind (before : Bytes) : Nat := (before.rtakeWhile isInLine).length + 1

/-- A source has a newline that ends its first line, or it is one line. -/
theorem exists_first_newline (source : Bytes) :
    (∀ b ∈ source, isInLine b = true) ∨
      ∃ row rest, source = row ++ '\n'.toUInt8 :: rest ∧ ∀ b ∈ row, isInLine b = true := by
  have hrow : ∀ b ∈ source.takeWhile isInLine, isInLine b = true :=
    List.all_eq_true.mp List.all_takeWhile
  have hcut : source.takeWhile isInLine ++ source.dropWhile isInLine = source :=
    List.takeWhile_append_dropWhile
  cases hrest : source.dropWhile isInLine with
  | nil =>
      rw [hrest, List.append_nil] at hcut
      exact .inl (hcut ▸ hrow)
  | cons b rest =>
      have hnewline : b = '\n'.toUInt8 := by
        have hhead := List.head?_dropWhile_not isInLine source
        rw [hrest] at hhead
        simpa [isInLine] using hhead
      rw [hrest, hnewline] at hcut
      exact .inr ⟨_, rest, hcut.symm, hrow⟩

section Row

variable {row : Bytes} (h : ∀ b ∈ row, isInLine b = true)

include h

theorem rows_of_inLine : rows row = [row] :=
  List.splitOnP_eq_singleton fun b hb => by simpa [isInLine] using h b hb

theorem rows_append_newline (rest : Bytes) :
    rows (row ++ '\n'.toUInt8 :: rest) = row :: rows rest := by
  have hrow : row.splitOnP (· == '\n'.toUInt8) = [row] := rows_of_inLine h
  rw [rows, List.splitOn, List.splitOnP_append_cons _ _ (by decide), hrow, List.singleton_append]
  rfl

theorem takeWhile_append_newline (rest : Bytes) :
    (row ++ '\n'.toUInt8 :: rest).takeWhile isInLine = row := by
  rw [List.takeWhile_append_of_pos h, List.takeWhile_cons_of_neg (by decide), List.append_nil]

theorem lineStart?_of_inLine (n : Nat) : lineStart? (n + 1) row = none := by
  have hnone : row.dropWhile isInLine = [] := List.dropWhile_eq_nil_iff.mpr h
  rw [lineStart?, hnone]

theorem lineStart?_append_newline (n : Nat) (rest : Bytes) :
    lineStart? (n + 1) (row ++ '\n'.toUInt8 :: rest) =
      (lineStart? n rest).map fun start => row.length + 1 + start := by
  have hbehind : (row ++ '\n'.toUInt8 :: rest).dropWhile isInLine = '\n'.toUInt8 :: rest := by
    rw [List.dropWhile_append_of_pos h, List.dropWhile_cons_of_neg (by decide)]
  rw [lineStart?, hbehind, takeWhile_append_newline h]

end Row

/-- The row of a line is what stands between the line's start and the next newline. -/
theorem getElem?_rows (source : Bytes) (n : Nat) :
    (rows source)[n]? =
      (lineStart? n source).map fun start => (source.drop start).takeWhile isInLine := by
  induction n generalizing source with
  | zero =>
      rcases exists_first_newline source with hrow | ⟨row, rest, rfl, hrow⟩
      · rw [rows_of_inLine hrow, lineStart?, Option.map_some, List.drop_zero,
          List.takeWhile_eq_self_iff.mpr hrow, List.getElem?_cons_zero]
      · rw [rows_append_newline hrow, lineStart?, Option.map_some, List.drop_zero,
          takeWhile_append_newline hrow, List.getElem?_cons_zero]
  | succ n ih =>
      rcases exists_first_newline source with hrow | ⟨row, rest, rfl, hrow⟩
      · rw [rows_of_inLine hrow, lineStart?_of_inLine hrow, List.getElem?_cons_succ,
          List.getElem?_nil, Option.map_none]
      · have hdrop (start : Nat) :
            (row ++ '\n'.toUInt8 :: rest).drop (row.length + 1 + start) = rest.drop start := by
          rw [Nat.add_assoc, Nat.add_comm 1, List.drop_length_add_append, List.drop_succ_cons]
        rw [rows_append_newline hrow, lineStart?_append_newline hrow, List.getElem?_cons_succ, ih,
          Option.map_map]
        simp only [Function.comp_def, hdrop]

theorem lineBehind_concat (front : Bytes) (b : UInt8) :
    lineBehind (front ++ [b]) =
      if b = '\n'.toUInt8 then lineBehind front + 1 else lineBehind front := by
  simp only [lineBehind, List.count_append, List.count_singleton, beq_iff_eq]
  split <;> rfl

theorem columnBehind_concat (front : Bytes) (b : UInt8) :
    columnBehind (front ++ [b]) = if b = '\n'.toUInt8 then 1 else columnBehind front + 1 := by
  rw [columnBehind, List.rtakeWhile_concat]
  by_cases hb : b = '\n'.toUInt8
  · have hnewline : ¬isInLine b = true := by simpa [isInLine] using hb
    rw [if_neg hnewline, if_pos hb, List.length_nil]
  · have hinLine : isInLine b = true := by simpa [isInLine] using hb
    rw [if_pos hinLine, if_neg hb, List.length_append, List.length_singleton, columnBehind]

/-- The place behind some bytes by its offset, its line and its column. -/
theorem origin_advance (before : Bytes) :
    Position.origin.advance before =
      ⟨before.length, lineBehind before, columnBehind before⟩ := by
  induction before using List.reverseRecOn with
  | nil => rfl
  | append_singleton front b ih =>
      rw [Position.advance_append, ih, lineBehind_concat, columnBehind_concat, List.length_append,
        List.length_singleton]
      change Position.step _ b = _
      rw [Position.step]
      split <;> rfl

/-- A line and a column lead to an offset if and only if they are the offset's own. -/
theorem offset?_eq_some_iff {source : Bytes} {line column : Int} {offset : Nat} :
    offset? source line column = some offset ↔
      offset ≤ source.length ∧ line = lineBehind (source.take offset) ∧
        column = columnBehind (source.take offset) := by
  constructor
  · intro h
    have hle := offset?_le h
    have hplace := place_of_offset? h
    rw [origin_advance, Position.mk.injEq] at hplace
    obtain ⟨-, hline, hcolumn⟩ := hplace
    have hline_pos : 1 ≤ lineBehind (source.take offset) := Nat.le_add_left ..
    have hcolumn_pos : 1 ≤ columnBehind (source.take offset) := Nat.le_add_left ..
    exact ⟨hle, by omega, by omega⟩
  · rintro ⟨hle, rfl, rfl⟩
    have hplace := offset?_of_in (Position.in_advance (List.take_prefix offset source))
    rw [origin_advance, List.length_take, Nat.min_eq_left hle] at hplace
    exact hplace

/-- A line and a column lead somewhere if and only if the line is that of a row and the column
that of one of its bytes or of its end. -/
theorem isSome_offset?_iff {source : Bytes} {line column : Int} :
    (offset? source line column).isSome ↔
      ∃ n column' : Nat, ∃ row, line = n + 1 ∧ column = column' + 1 ∧
        (rows source)[n]? = some row ∧ column' ≤ row.length := by
  have hrow := getElem?_rows source (line - 1).toNat
  unfold offset?
  constructor
  · intro h
    split at h
    next => cases h
    next hpos =>
        split at h
        next => cases h
        next start hstart =>
            rw [hstart, Option.map_some] at hrow
            simp only at h
            split at h
            next hle => exact ⟨_, (column - 1).toNat, _, by omega, by omega, hrow, by omega⟩
            next => cases h
  · rintro ⟨n, column', row, rfl, rfl, hn, hle⟩
    have hline : ((n : Int) + 1 - 1).toNat = n := by omega
    rw [hline] at hrow ⊢
    obtain ⟨start, hstart, rfl⟩ := Option.map_eq_some_iff.mp (hrow.symm.trans hn)
    rw [if_neg (by omega), hstart]
    simp only
    rw [if_pos (by omega), Option.isSome_some]

/-- A line and a column lead to an offset if and only if they count a row and one of its bytes
or its end. The offset's line counts the newlines in front of it, its column the bytes behind the
last of them, and every place between two bytes, the ends of the source included, is reached from
exactly one line and column. -/
theorem offset?_bijective (source : Bytes) :
    (∀ line column : Int, (offset? source line column).isSome ↔
      ∃ n column' : Nat, ∃ row, line = n + 1 ∧ column = column' + 1 ∧
        (rows source)[n]? = some row ∧ column' ≤ row.length) ∧
    (∀ (line column : Int) (offset : Nat), offset? source line column = some offset ↔
      offset ≤ source.length ∧ line = lineBehind (source.take offset) ∧
        column = columnBehind (source.take offset)) ∧
    ∀ offset : Fin (source.length + 1),
      ∃! place : Int × Int, offset? source place.1 place.2 = some offset.val := by
  refine ⟨fun _ _ => isSome_offset?_iff, fun _ _ _ => offset?_eq_some_iff, fun offset => ?_⟩
  have hle := Nat.le_of_lt_succ offset.isLt
  refine ⟨(lineBehind (source.take offset), columnBehind (source.take offset)),
    offset?_eq_some_iff.mpr ⟨hle, rfl, rfl⟩, ?_⟩
  rintro ⟨line, column⟩ h
  obtain ⟨-, rfl, rfl⟩ := offset?_eq_some_iff.mp h
  rfl

end DotCompletion.Source
