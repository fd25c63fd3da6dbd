import DotCompletion.Proofs.Source.CodeUnits
import DotCompletion.Proofs.Source.Places

/-!
# Columns in UTF-16 units and back

Between two characters of a line, the units in front and the bytes in front say the same. So a
place of a source where no character is cut is found again by the line and the units that an
editor is told (`Source.offset?_editorPosition`), and the place of a request is found again by
its line and its column (`Source.EditorPosition.Between.editorPosition`).
-/

namespace DotCompletion.Source

/-- The column behind characters that are given by their units. -/
theorem byteColumn_unitsOf {source : Bytes} {line : Int} {front back : List Piece}
    (h : Utf8.pieces (lineText source line) = front ++ back) :
    byteColumn source line (unitsOf front) = sizeOf front + 1 := by
  rw [byteColumn_eq, h, bytesBefore_unitsOf]

namespace EditorPosition

/-- The offset of an editor's place. -/
def offset? (source : Bytes) (p : EditorPosition) : Option Nat :=
  Source.offset? source (p.line + 1) (byteColumn source (p.line + 1) p.character)

/-- The numbers have 32 bits, as those that editors send. -/
structure Fits (p : EditorPosition) : Prop where
  line : p.line < 0x100000000
  character : p.character < 0x100000000

/-- The place is on a line of the source, in front of, between or behind its characters. -/
def Between (source : Bytes) (p : EditorPosition) : Prop :=
  (lineStart? p.line source).isSome ∧
    ∃ front back, Utf8.pieces (lineText source (p.line + 1)) = front ++ back ∧
      unitsOf front = p.character

variable {source : Bytes} {p : EditorPosition}

theorem lineText_eq {start : Nat} (h : lineStart? p.line source = some start) :
    lineText source (p.line + 1) = (source.drop start).takeWhile isInLine := by
  have hline : ((p.line : Int) + 1 - 1).toNat = p.line := by omega
  rw [lineText, hline, h]

/-- A place between characters is a place of the source. -/
theorem Between.exists_offset (h : p.Between source) :
    ∃ start column, lineStart? p.line source = some start ∧
      byteColumn source (p.line + 1) p.character = column + 1 ∧
      column ≤ ((source.drop start).takeWhile isInLine).length ∧
      p.offset? source = some (start + column) := by
  obtain ⟨hsome, front, back, hpieces, hunits⟩ := h
  obtain ⟨start, hstart⟩ := Option.isSome_iff_exists.mp hsome
  have hcolumn : byteColumn source (p.line + 1) p.character = sizeOf front + 1 := by
    rw [← hunits]
    exact byteColumn_unitsOf hpieces
  have hsize : sizeOf front ≤ ((source.drop start).takeWhile isInLine).length := by
    have hall := Utf8.sum_size_pieces (lineText source (p.line + 1))
    rw [hpieces, List.map_append, List.sum_append, lineText_eq hstart] at hall
    unfold sizeOf
    omega
  refine ⟨start, sizeOf front, hstart, hcolumn, hsize, ?_⟩
  have hline : ((p.line : Int) + 1 - 1).toNat = p.line := by omega
  have hoffset : ((sizeOf front + 1 : Nat) - 1 : Int).toNat = sizeOf front := by omega
  rw [offset?, Source.offset?, hcolumn, if_neg (by omega), hline, hstart]
  simp only [hoffset]
  rw [if_pos (by omega)]

/-- An editor finds its place again. -/
theorem Between.editorPosition (h : p.Between source) (hfits : p.Fits) :
    Source.editorPosition source (p.line + 1) (byteColumn source (p.line + 1) p.character) = p := by
  obtain ⟨-, front, back, hpieces, hunits⟩ := h
  have hcolumn : byteColumn source (p.line + 1) p.character = sizeOf front + 1 := by
    rw [← hunits]
    exact byteColumn_unitsOf hpieces
  have hcharacter : unitsWithin ((byteColumn source (p.line + 1) p.character : Nat) - 1)
      (Utf8.pieces (lineText source (p.line + 1))) = p.character := by
    rw [hcolumn, hpieces, ← hunits, ← unitsWithin_sizeOf front back]
    congr 1
    omega
  have hnumber : (((p.line : Int) + 1 - 1) % 0x100000000).toNat = p.line := by
    have hline := hfits.line
    omega
  rw [Source.editorPosition, hcharacter, hnumber, Nat.mod_eq_of_lt hfits.character]

end EditorPosition

theorem advance_inLine {bytes : Bytes} (h : ∀ b ∈ bytes, isInLine b = true) (p : Position) :
    p.advance bytes = ⟨p.offset + bytes.length, p.line, p.column + bytes.length⟩ := by
  induction bytes generalizing p with
  | nil => rfl
  | cons b rest ih =>
      obtain ⟨hb, hrest⟩ := List.forall_mem_cons.mp h
      have hstep : p.step b = ⟨p.offset + 1, p.line, p.column + 1⟩ := by
        rw [Position.step, if_neg (by simpa [isInLine] using hb)]
      change (p.step b).advance rest = _
      rw [ih hrest, hstep, List.length_cons, Nat.add_assoc, Nat.add_assoc, Nat.add_comm 1]

/-- A line begins behind as many newlines as its number says. -/
theorem advance_take {n start offset : Nat} {source : Bytes}
    (hstart : lineStart? n source = some start) (hle : start ≤ offset)
    (hline : offset ≤ start + ((source.drop start).takeWhile isInLine).length) (p : Position) :
    (p.advance (source.take offset)).line = p.line + n ∧
      (p.advance (source.take offset)).column =
        if n = 0 then p.column + offset else offset - start + 1 := by
  induction n generalizing source start offset p with
  | zero =>
      cases hstart
      rw [List.drop_zero, Nat.zero_add] at hline
      have htake : source.take offset = (source.takeWhile isInLine).take offset := by
        conv => lhs; rw [← List.takeWhile_append_dropWhile (l := source) (p := isInLine)]
        rw [List.take_append_of_le_length hline]
      have hall : ∀ b ∈ (source.takeWhile isInLine).take offset, isInLine b = true := fun b hb =>
        List.all_eq_true.mp List.all_takeWhile b (List.mem_of_mem_take hb)
      rw [htake, advance_inLine hall, List.length_take, Nat.min_eq_left hline]
      exact ⟨rfl, rfl⟩
  | succ n ih =>
      rw [lineStart?] at hstart
      split at hstart
      next => cases hstart
      next newline behind hbehind =>
          obtain ⟨inner, hinner, rfl⟩ := Option.map_eq_some_iff.mp hstart
          have hnewline : newline = '\n'.toUInt8 := by
            have hhead := List.head?_dropWhile_not isInLine source
            rw [hbehind] at hhead
            simpa [isInLine] using hhead
          have hsource : source = (source.takeWhile isInLine ++ ['\n'.toUInt8]) ++ behind := by
            conv => lhs; rw [← List.takeWhile_append_dropWhile (l := source) (p := isInLine)]
            rw [hbehind, hnewline, List.append_assoc, List.singleton_append]
          have hlength : (source.takeWhile isInLine ++ ['\n'.toUInt8]).length =
              (source.takeWhile isInLine).length + 1 := List.length_append
          have hback : p.advance (source.takeWhile isInLine ++ ['\n'.toUInt8]) =
              ⟨p.offset + (source.takeWhile isInLine).length + 1, p.line + 1, 1⟩ := by
            rw [Position.advance_append, advance_inLine (List.all_eq_true.mp List.all_takeWhile)]
            rfl
          rw [← hlength] at hle hline ⊢
          generalize source.takeWhile isInLine ++ ['\n'.toUInt8] = front
            at hle hline hsource hback ⊢
          obtain ⟨more, rfl⟩ :=
            Nat.exists_eq_add_of_le (Nat.le_trans (Nat.le_add_right _ inner) hle)
          rw [hsource, List.drop_length_add_append] at hline
          obtain ⟨hl, hc⟩ := ih hinner (show inner ≤ more by omega) (by omega) (p.advance front)
          rw [hsource, List.take_length_add_append, Position.advance_append, hl, hc, hback]
          refine ⟨by simp only; omega, ?_⟩
          rw [if_neg (Nat.succ_ne_zero n)]
          split
          next hzero =>
              subst hzero
              cases hinner
              simp only
              omega
          next => omega

/-- The place that is found for a line and a column has this line and this column. -/
theorem place_of_offset? {source : Bytes} {line column : Int} {offset : Nat}
    (h : offset? source line column = some offset) :
    Position.origin.advance (source.take offset) = ⟨offset, line.toNat, column.toNat⟩ := by
  have hle := offset?_le h
  unfold offset? at h
  split at h
  next => cases h
  next hpos =>
      split at h
      next => cases h
      next start hstart =>
          simp only at h
          split at h
          next hlast =>
              cases h
              obtain ⟨hline, hcolumn⟩ := advance_take hstart (by omega) hlast Position.origin
              have hoffset := Position.origin_advance_offset
                (source.take (start + (column - 1).toNat))
              rw [List.length_take, Nat.min_eq_left hle] at hoffset
              generalize Position.origin.advance _ = p at hline hcolumn hoffset ⊢
              obtain ⟨_, _, _⟩ := p
              simp only [Position.origin, Position.mk.injEq] at hline hcolumn hoffset ⊢
              refine ⟨hoffset, by omega, ?_⟩
              rw [hcolumn]
              split
              next hfirst =>
                  rw [hfirst] at hstart
                  cases hstart
                  omega
              next => omega
          next => cases h

/-- The units of the characters of a position's line that stand in front of the position. -/
def unitsBefore (source : Bytes) (p : Position) : Nat :=
  unitsOf (Utf8.pieces ((lineText source p.line).take (p.column - 1)))

theorem unitsBefore_le_length (source : Bytes) (p : Position) :
    unitsBefore source p ≤ source.length := by
  have hline : (lineText source p.line).length ≤ source.length := by
    rw [lineText]
    split
    next start _ =>
        exact ((List.takeWhile_sublist _).trans (List.drop_sublist start source)).length_le
    next => exact Nat.zero_le _
  calc unitsBefore source p
      ≤ sizeOf (Utf8.pieces ((lineText source p.line).take (p.column - 1))) := unitsOf_le_sizeOf _
    _ = ((lineText source p.line).take (p.column - 1)).length := Utf8.sum_size_pieces _
    _ ≤ (lineText source p.line).length := List.length_take_le' _ _
    _ ≤ source.length := hline

/-- Where no character is cut, the characters of the line stand in front of the place or behind
it. -/
theorem pieces_lineText_advance {before behind : Bytes} (hseam : Bytes.Seam before behind) :
    ∃ front back, Utf8.pieces (lineText (before ++ behind) (Position.origin.advance before).line) =
        front ++ back ∧
      (Position.origin.advance before).column = sizeOf front + 1 ∧
      unitsBefore (before ++ behind) (Position.origin.advance before) = unitsOf front := by
  obtain ⟨start, line, hstart, hdrop, hall, hlength, hcolumn, hpos⟩ :=
    lineStart?_advance before behind
  generalize Position.origin.advance before = p at hstart hcolumn hpos ⊢
  have htext : lineText (before ++ behind) p.line = line ++ behind.takeWhile isInLine := by
    have hindex : ((p.line : Int) - 1).toNat = p.line - 1 := by omega
    rw [lineText, hindex, hstart]
    simp only
    rw [List.drop_append_of_le_length (by omega), hdrop,
      List.takeWhile_append_of_pos (List.all_eq_true.mp hall)]
  have hcut : Bytes.Seam line (behind.takeWhile isInLine) := by
    rw [← hdrop]
    exact (hseam.of_suffix (List.drop_suffix _ _)).of_shorter (List.takeWhile_prefix _)
  refine ⟨Utf8.pieces line, Utf8.pieces (behind.takeWhile isInLine), ?_, ?_, ?_⟩
  · rw [htext, Utf8.pieces_append hcut]
  · rw [hcolumn, sizeOf, Utf8.sum_size_pieces]
  · rw [unitsBefore, htext, hcolumn, Nat.add_sub_cancel, List.take_left]

/-- What an editor is told about a place where no character is cut leads back to the place, if the
units in front of it fit the number that the editor is told. -/
theorem offset?_editorPosition {before behind : Bytes} (hseam : Bytes.Seam before behind)
    (hline : (Position.origin.advance before).line ≤ 0x100000000)
    (hunits : unitsBefore (before ++ behind) (Position.origin.advance before) < 0x100000000) :
    (editorPosition (before ++ behind) (Position.origin.advance before).line
      (Position.origin.advance before).column).offset? (before ++ behind) = some before.length := by
  have hoffset := offset?_of_in (Position.in_advance (List.prefix_append before behind))
  obtain ⟨_, _, -, -, -, -, -, hpos⟩ := lineStart?_advance before behind
  obtain ⟨front, back, hpieces, hcolumn, hbefore⟩ := pieces_lineText_advance hseam
  rw [Position.origin_advance_offset] at hoffset
  generalize Position.origin.advance before = p
    at hline hunits hoffset hpos hpieces hcolumn hbefore ⊢
  have hcharacter : (editorPosition (before ++ behind) p.line p.column).character =
      unitsOf front := by
    have hbytes : (p.column : Int) - 1 = sizeOf front := by omega
    rw [editorPosition, hbytes, hpieces, unitsWithin_sizeOf, Nat.mod_eq_of_lt (hbefore ▸ hunits)]
  have hcast : (((((p.line : Int) - 1) % 0x100000000).toNat : Nat) : Int) + 1 = p.line := by
    omega
  rw [EditorPosition.offset?, hcharacter]
  simp only [editorPosition]
  rw [hcast, byteColumn_unitsOf hpieces, ← hcolumn]
  exact hoffset

/-- A place in front of another one on its line has no more units in front. -/
theorem unitsBefore_le {before behind : Bytes} {place : EditorPosition}
    (hseam : Bytes.Seam before behind) (hplace : place.Between (before ++ behind))
    (hline : (Position.origin.advance before).line = place.line + 1)
    (hcolumn : (Position.origin.advance before).column ≤
      byteColumn (before ++ behind) (place.line + 1) place.character) :
    unitsBefore (before ++ behind) (Position.origin.advance before) ≤ place.character := by
  obtain ⟨front, back, hpieces, hfront, hbefore⟩ := pieces_lineText_advance hseam
  obtain ⟨-, front', back', hpieces', hunits⟩ := hplace
  rw [← hunits, byteColumn_unitsOf hpieces'] at hcolumn
  rw [hline] at hpieces
  rw [hbefore, ← hunits]
  exact unitsOf_mono (hpieces.symm.trans hpieces') (by omega)

end DotCompletion.Source
