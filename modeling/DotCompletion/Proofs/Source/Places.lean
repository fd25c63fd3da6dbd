import Mathlib.Data.List.Induction
import DotCompletion.Source.Offset

/-!
# Places of a source

A position is a place of a source if a reader who starts at the origin gets to it
by reading a beginning of the source. Lines and columns name places: the offset
found for the line and the column of a place is the place's own offset.
-/

namespace DotCompletion

namespace Position

theorem advance_append (p : Position) (front back : Bytes) :
    p.advance (front ++ back) = (p.advance front).advance back := by
  simp only [advance, List.foldl_append]

@[simp] theorem advance_nil (p : Position) : p.advance [] = p := rfl

theorem step_offset (p : Position) (b : UInt8) : (p.step b).offset = p.offset + 1 := by
  unfold step
  split <;> rfl

theorem advance_offset (p : Position) (bytes : Bytes) :
    (p.advance bytes).offset = p.offset + bytes.length := by
  induction bytes generalizing p with
  | nil => rfl
  | cons b rest ih =>
      change ((p.step b).advance rest).offset = _
      rw [ih, step_offset, List.length_cons]
      omega

/-- The offset behind a beginning of a source is its length. -/
@[simp] theorem origin_advance_offset (bytes : Bytes) :
    (origin.advance bytes).offset = bytes.length := by
  rw [advance_offset]
  exact Nat.zero_add _

/-- The position is a place of the source. -/
def In (source : Bytes) (p : Position) : Prop :=
  ∃ before, before <+: source ∧ p = origin.advance before

namespace In

variable {source : Bytes} {p : Position}

theorem offset_le (h : p.In source) : p.offset ≤ source.length := by
  obtain ⟨before, hbefore, rfl⟩ := h
  rw [origin_advance_offset]
  exact hbefore.length_le

theorem eq_advance_take (h : p.In source) : p = origin.advance (source.take p.offset) := by
  obtain ⟨before, hbefore, rfl⟩ := h
  rw [origin_advance_offset, ← List.prefix_iff_eq_take.mp hbefore]

/-- A place is a place of every source that begins in the same way. -/
theorem of_take_eq {source' : Bytes} (h : p.In source)
    (htake : source.take p.offset = source'.take p.offset) : p.In source' :=
  ⟨source'.take p.offset, List.take_prefix _ _, by rw [← htake, ← h.eq_advance_take]⟩

end In

theorem in_advance {source before : Bytes} (h : before <+: source) :
    (origin.advance before).In source :=
  ⟨before, h, rfl⟩

end Position

namespace Source

/-- One line further: a newline follows on the rest of a line. -/
theorem lineStart?_succ {n : Nat} {source line rest : Bytes} {start : Nat}
    (hstart : lineStart? n source = some start) (hline : line.all isInLine = true)
    (hdrop : source.drop start = line ++ '\n'.toUInt8 :: rest) :
    lineStart? (n + 1) source = some (start + line.length + 1) := by
  induction n generalizing source start with
  | zero =>
      cases hstart
      rw [List.drop_zero] at hdrop
      subst hdrop
      have hnewline : isInLine '\n'.toUInt8 = false := by decide
      have hall := List.all_eq_true.mp hline
      simp only [lineStart?, List.dropWhile_append_of_pos hall,
        List.takeWhile_append_of_pos hall, List.dropWhile_cons, List.takeWhile_cons, hnewline,
        Bool.false_eq_true, if_false, List.append_nil, Option.map_some, Nat.zero_add,
        Nat.add_zero]
  | succ n ih =>
      rw [lineStart?] at hstart ⊢
      split at hstart
      next => cases hstart
      next newline behind hbehind =>
          obtain ⟨inner, hinner, rfl⟩ := Option.map_eq_some_iff.mp hstart
          have hsource : source.drop (source.takeWhile isInLine).length = newline :: behind := by
            conv => lhs; rhs; rw [← List.takeWhile_append_dropWhile (l := source) (p := isInLine)]
            rw [List.drop_left, hbehind]
          have hdrop' : behind.drop inner = line ++ '\n'.toUInt8 :: rest := by
            rw [← hdrop, Nat.add_assoc, ← List.drop_drop, hsource, Nat.add_comm 1 inner,
              List.drop_succ_cons]
          simp only [ih hinner hdrop', Option.map_some]
          congr 1
          omega

/-- The line of a place begins as many bytes in front of it as its column says,
and no newline comes in between. -/
theorem lineStart?_advance (before behind : Bytes) :
    ∃ start line, lineStart? ((Position.origin.advance before).line - 1) (before ++ behind) =
        some start ∧
      before.drop start = line ∧ line.all isInLine = true ∧
      start + line.length = before.length ∧
      (Position.origin.advance before).column = line.length + 1 ∧
      1 ≤ (Position.origin.advance before).line := by
  induction before using List.reverseRecOn generalizing behind with
  | nil => exact ⟨0, [], rfl, rfl, rfl, rfl, rfl, Nat.le_refl _⟩
  | append_singleton front b ih =>
      obtain ⟨start, line, hstart, hdrop, hline, hlength, hcolumn, hpos⟩ := ih (b :: behind)
      have hfront : front.drop start ++ [b] = (front ++ [b]).drop start := by
        rw [List.drop_append_of_le_length (by omega)]
      rw [Position.advance_append]
      by_cases hb : b = '\n'.toUInt8
      · subst hb
        refine ⟨front.length + 1, [], ?_, ?_, rfl, ?_, ?_, ?_⟩
        · have hcut : (front ++ '\n'.toUInt8 :: behind).drop start =
              line ++ '\n'.toUInt8 :: behind := by
            rw [List.drop_append_of_le_length (by omega), hdrop]
          have hnext := lineStart?_succ hstart hline hcut
          rw [List.append_assoc, List.singleton_append]
          simp only [Position.advance, List.foldl_cons, List.foldl_nil, Position.step, if_true]
            at hnext hpos ⊢
          rw [Nat.sub_add_cancel hpos] at hnext
          rw [Nat.add_sub_cancel, hnext, hlength]
        · exact List.drop_of_length_le (by simp)
        · simp
        · simp [Position.advance, Position.step]
        · simp [Position.advance, Position.step]
      · refine ⟨start, line ++ [b], ?_, ?_, ?_, ?_, ?_, ?_⟩
        · rw [List.append_assoc, List.singleton_append]
          simpa [Position.advance, Position.step, hb] using hstart
        · rw [← hfront, hdrop]
        · simp [hline, isInLine, hb]
        · simp only [List.length_append, List.length_singleton]
          omega
        · simpa [Position.advance, Position.step, hb] using hcolumn
        · simpa [Position.advance, Position.step, hb] using hpos

/-- The line and the column of a place lead to its offset. -/
theorem offset?_of_in {source : Bytes} {p : Position} (h : p.In source) :
    offset? source p.line p.column = some p.offset := by
  obtain ⟨before, ⟨behind, rfl⟩, rfl⟩ := h
  obtain ⟨start, line, hstart, hdrop, hline, hlength, hcolumn, hpos⟩ :=
    lineStart?_advance before behind
  have hinLine : line.length ≤ (((before ++ behind).drop start).takeWhile isInLine).length := by
    rw [List.drop_append_of_le_length (by omega), hdrop,
      List.takeWhile_append_of_pos (List.all_eq_true.mp hline), List.length_append]
    omega
  have hlineNat : (((Position.origin.advance before).line : Int) - 1).toNat =
      (Position.origin.advance before).line - 1 := by omega
  have hcolumnNat : (((Position.origin.advance before).column : Int) - 1).toNat =
      line.length := by omega
  unfold offset?
  rw [if_neg (by omega), hlineNat, hstart]
  simp only [hcolumnNat]
  rw [if_pos (by omega), hlength, Position.origin_advance_offset]

theorem lineStart?_le {n : Nat} {source : Bytes} {start : Nat}
    (h : lineStart? n source = some start) : start ≤ source.length := by
  induction n generalizing source start with
  | zero =>
      cases h
      exact Nat.zero_le _
  | succ n ih =>
      rw [lineStart?] at h
      split at h
      next => cases h
      next newline behind hbehind =>
          obtain ⟨inner, hinner, rfl⟩ := Option.map_eq_some_iff.mp h
          have hle := ih hinner
          have hlength := congrArg List.length
            (List.takeWhile_append_dropWhile (l := source) (p := isInLine))
          rw [hbehind, List.length_append, List.length_cons] at hlength
          omega

/-- An offset that is found lies in the source. -/
theorem offset?_le {source : Bytes} {line column : Int} {offset : Nat}
    (h : offset? source line column = some offset) : offset ≤ source.length := by
  unfold offset? at h
  split at h
  next => cases h
  next =>
      split at h
      next => cases h
      next start hstart =>
          simp only at h
          split at h
          next hle =>
              cases h
              have hstartLe := lineStart?_le hstart
              have hline := (List.takeWhile_prefix (l := source.drop start) isInLine).length_le
              rw [List.length_drop] at hline
              omega
          next => cases h

end Source

end DotCompletion
