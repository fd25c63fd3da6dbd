import DotCompletion.Proofs.Text.Pieces
import DotCompletion.Proofs.Token.Boundary

/-!
# Tokens end between characters

Whatever the bytes of a source are, valid text or not, between two neighbouring tokens one of the
bytes is ASCII: every other byte is a letter to the lexer, and where two letters stand side by
side no token ends, unless the first belongs to a number, and numbers are ASCII. So tokens begin
and end where no character is cut (`Token.Part.atSeam`).
-/

namespace DotCompletion

namespace Scan

open Bytes (Seam)

variable {b z : UInt8} {rest tail text : Bytes}

theorem lt_of_not_isWordByte (h : isWordByte b = false) : b < 0x80 := by
  by_contra hge
  have hletter : isLetter b = true := by simp [isLetter, UInt8.not_lt.mp hge]
  rw [isWordByte, hletter] at h
  cases h

/-- A byte beyond ASCII is in no class of digits. -/
theorem not_digit_of_large (hz : ¬z < 0x80) :
    isDigitOrBar z = false ∧ isHexOrBar z = false ∧ isBinaryOrBar z = false := by
  have hlarge : 0x80 ≤ z.toNat := by
    rw [UInt8.lt_iff_toNat_lt] at hz
    exact Nat.not_lt.mp hz
  simp only [isHexOrBar, isDigitOrBar, isDigit, isBinaryOrBar, Bool.or_eq_false_iff,
    Bool.and_eq_false_iff, decide_eq_false_iff_not, beq_eq_false_iff_ne, ne_eq,
    UInt8.le_iff_toNat_le, ← UInt8.toNat_inj]
  have hchars : '9'.toUInt8.toNat = 57 ∧ 'f'.toUInt8.toNat = 102 ∧ 'F'.toUInt8.toNat = 70 ∧
      '_'.toUInt8.toNat = 95 ∧ '0'.toUInt8.toNat = 48 ∧ '1'.toUInt8.toNat = 49 := by decide
  omega

theorem ne_of_large (hz : ¬z < 0x80) {cs : List Char} (hcs : ∀ c ∈ cs, c.toUInt8 < 0x80) :
    ∀ c ∈ cs, c.toUInt8 ≠ z := by
  rintro c hc rfl
  exact hz (hcs c hc)

theorem suffix_decimalNumber_of_large (hz : ¬z < 0x80) {input : Bytes} (h : z :: tail <:+ input) :
    z :: tail <:+ (decimalNumber input).2 := by
  obtain ⟨hdigit, -, -⟩ := not_digit_of_large hz
  have hdot : '.'.toUInt8 ≠ z :=
    ne_of_large hz (by decide : ∀ c ∈ ['.'], c.toUInt8 < 0x80) '.' (by simp)
  have hpower : z :: tail <:+ (exponent ['e', 'E'] (fraction isDigitOrBar
      (hasPoint (input.dropWhile isDigitOrBar)) (input.dropWhile isDigitOrBar))).2 := by
    refine suffix_exponent (ne_of_large hz (by decide)) (ne_of_large hz (by decide)) hdigit
      (suffix_fraction hdigit hdot ?_ (suffix_dropWhile hdigit h))
    intro hpoint
    simp only [hasPoint, Bool.and_eq_true] at hpoint
    exact hpoint.1
  simp only [decimalNumber, decimalEnd]
  split
  next hstarts => exact suffix_drop_one (ne_of_large hz (by decide)) hpower hstarts
  next =>
      split
      next => exact hpower
      next => exact suffix_skipAny (ne_of_large hz (by decide)) hpower

theorem suffix_hexNumber_of_large (hz : ¬z < 0x80) {input : Bytes} (h : z :: tail <:+ input) :
    z :: tail <:+ (hexNumber input).2 := by
  obtain ⟨hdigit, hhex, -⟩ := not_digit_of_large hz
  have hdot : '.'.toUInt8 ≠ z :=
    ne_of_large hz (by decide : ∀ c ∈ ['.'], c.toUInt8 < 0x80) '.' (by simp)
  have hpower : z :: tail <:+ (exponent ['p', 'P'] (fraction isHexOrBar
      (Bytes.startsWith '.' (input.dropWhile isHexOrBar)) (input.dropWhile isHexOrBar))).2 :=
    suffix_exponent (ne_of_large hz (by decide)) (ne_of_large hz (by decide)) hdigit
      (suffix_fraction hhex hdot id (suffix_dropWhile hhex h))
  simp only [hexNumber, hexEnd]
  split <;> exact suffix_skipAny (ne_of_large hz (by decide)) hpower

/-- A number takes ASCII bytes only. -/
theorem suffix_number_of_large (hz : ¬z < 0x80) (hb : StartsNumber b rest)
    (h : z :: tail <:+ b :: rest) : z :: tail <:+ (number b rest).2 := by
  have hrest : z :: tail <:+ rest := by
    refine (List.suffix_cons_iff.mp h).resolve_left ?_
    intro heq
    cases heq
    rcases hb with hdigit | ⟨hdot, _⟩
    · have hbar : isDigitOrBar b = true := by simp [isDigitOrBar, hdigit]
      rw [(not_digit_of_large hz).1] at hbar
      cases hbar
    · exact hz (hdot ▸ by decide)
  unfold number
  split
  next hbase =>
      exact suffix_hexNumber_of_large hz (suffix_drop_one (ne_of_large hz (by decide)) hrest hbase.2)
  next =>
      split
      next hbase =>
          obtain ⟨-, -, hbinary⟩ := not_digit_of_large hz
          exact suffix_skipAny (ne_of_large hz (by decide)) (suffix_dropWhile hbinary
            (suffix_drop_one (ne_of_large hz (by decide)) hrest hbase.2))
      next => exact suffix_decimalNumber_of_large hz h

/-- No character reaches over the end of a token. -/
theorem seam_token (h : text ++ (token b rest).2 = b :: rest) : Seam text (token b rest).2 := by
  rcases endsApart_token b rest with hletter | hnumber | hapart
  · cases hbehind : (token b rest).2 with
    | nil => exact .nil_right _
    | cons d tail =>
        rw [token_of_isLetter hletter] at hbehind
        exact .of_back (lt_of_not_isWordByte (word_munch hbehind)) _ _
  · intro y hy _ _
    refine .inl ?_
    by_contra hlarge
    rcases List.eq_nil_or_concat text with rfl | ⟨front, z, rfl⟩
    · cases hy
    · rw [List.concat_eq_append, List.getLast?_concat] at hy
      cases hy
      rw [List.concat_eq_append, List.append_assoc, token_of_startsNumber hnumber] at h
      have hlength := (suffix_number_of_large hlarge hnumber ⟨front, h⟩).length_le
      exact Nat.not_succ_le_self _ hlength
  · cases hbehind : (token b rest).2 with
    | nil => exact .nil_right _
    | cons d tail =>
        rw [hbehind] at h hapart
        generalize hleft : d :: tail = left at h hapart
        cases hapart with
        | nothing => cases hleft
        | newline => exact .of_back (by decide) _ _
        | @behind front z _ hinput hz =>
            have htext : text = front ++ [z] := by
              refine @List.append_cancel_right _ _ left _ ?_
              rw [h, hinput, List.append_assoc]
              rfl
            rw [htext]
            exact .of_front (lt_of_not_isWordByte hz) _ _

end Scan

/-- The position is a place of the source where no character is cut. -/
def Position.AtSeam (source : Bytes) (p : Position) : Prop :=
  ∃ before behind, source = before ++ behind ∧ p = Position.origin.advance before ∧
    Bytes.Seam before behind

namespace Position

theorem AtSeam.position_in {source : Bytes} {p : Position} (h : p.AtSeam source) : p.In source := by
  obtain ⟨before, behind, rfl, rfl, -⟩ := h
  exact in_advance (List.prefix_append _ _)

theorem atSeam_end (source : Bytes) : (origin.advance source).AtSeam source :=
  ⟨source, [], (List.append_nil _).symm, rfl, .nil_right _⟩

end Position

namespace Token

variable {source : Bytes} {t : Token}

/-- Between two tokens of a source no character is cut. -/
theorem seam_of_read {p : Position} {input : Bytes} {before behind : List Token}
    (h : read p input = before ++ behind) :
    ∃ rest, input = before.flatMap literal ++ rest ∧ Bytes.Seam (before.flatMap literal) rest := by
  rcases List.eq_nil_or_concat before with rfl | ⟨front, t, rfl⟩
  · exact ⟨input, rfl, .nil_left _⟩
  · rw [List.concat_eq_append] at h ⊢
    rw [List.append_assoc] at h
    obtain ⟨rest, hinput, hbehind⟩ := read_eq_append h
    cases rest with
    | nil =>
        rw [read_nil] at hbehind
        cases hbehind
    | cons b rest =>
        rw [read_cons, List.singleton_append, List.cons.injEq] at hbehind
        obtain ⟨rfl, -⟩ := hbehind
        have htext := first_literal_append (p.advance (front.flatMap literal)) b rest
        refine ⟨(Scan.token b rest).2, ?_, ?_⟩
        · rw [List.flatMap_append, List.flatMap_singleton, List.append_assoc, htext, hinput]
        · rw [List.flatMap_append, List.flatMap_singleton]
          exact (Scan.seam_token htext).append (first_literal_ne_nil _ _ _) _

theorem atSeam_of_mem_read (h : t ∈ read .origin source) :
    t.span.start.AtSeam source ∧ t.span.stop.AtSeam source := by
  obtain ⟨front, back, hsplit⟩ := List.append_of_mem h
  obtain ⟨rest, hsource, hseam⟩ := seam_of_read hsplit
  obtain ⟨left, hsource', hbehind⟩ := read_eq_append hsplit
  obtain ⟨after, hsource'', hseam'⟩ :=
    seam_of_read (show read .origin source = (front ++ [t]) ++ back by rw [hsplit]; simp)
  cases left with
  | nil =>
      rw [read_nil] at hbehind
      cases hbehind
  | cons b left =>
      rw [read_cons, List.cons.injEq] at hbehind
      obtain ⟨rfl, -⟩ := hbehind
      refine ⟨⟨_, rest, hsource, rfl, hseam⟩, _, after, hsource'', ?_, hseam'⟩
      rw [List.flatMap_append, List.flatMap_singleton, Position.advance_append]
      rfl

/-- A sign can be cut behind its first byte. -/
theorem Stands.atSeam_right (h : t.Stands source) (hsolid : t.Solid)
    (hcut : Cursor.splittable.contains t.kind = true) : t.span.start.right.AtSeam source := by
  obtain ⟨before, behind, rfl, hstart, -⟩ := h
  refine ⟨before ++ ['>'.toUInt8], (Cursor.behindAngle t).literal ++ behind, ?_, ?_,
    .of_front (by decide) _ _⟩
  · rw [Cursor.literal_eq_cons hcut hsolid, List.append_assoc]
    rfl
  · rw [Position.advance_append, ← hstart]
    rfl

/-- Tokens and pieces of tokens begin and end where no character is cut. -/
theorem Part.atSeam (h : t.Part source) :
    t.span.start.AtSeam source ∧ t.span.stop.AtSeam source := by
  induction h with
  | whole h => exact atSeam_of_mem_read (List.mem_filter.mp h).1
  | angle hpart hcut ih => exact ⟨ih.1, hpart.stands.atSeam_right hpart.solid hcut⟩
  | behind hpart hcut ih => exact ⟨hpart.stands.atSeam_right hpart.solid hcut, ih.2⟩

end Token

end DotCompletion
