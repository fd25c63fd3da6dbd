import DotCompletion.Proofs.Token.Spaced

/-!
# Numbers as they are written

A number is written in one of a few forms: an integer in four bases, perhaps with the mark of a
long one, and a number with a fraction or an exponent in two, perhaps with the mark of its width.
Digits may have underscores between them. The letters overlap: `e`, `f` and `d` are marks, exponents
and digits of base sixteen, and a point may be all there is of a fraction. Each form is nevertheless
read as one token to its end (`Numeral.reads`).
-/

namespace DotCompletion

namespace Numeral

open Scan Bytes

/-! ## The forms -/

/-- A digit in base ten. -/
def isDecimal (b : UInt8) : Bool := '0'.toUInt8 ≤ b && b ≤ '9'.toUInt8

/-- A digit in base eight. -/
def isOctal (b : UInt8) : Bool := '0'.toUInt8 ≤ b && b ≤ '7'.toUInt8

/-- A digit in base two. -/
def isBinary (b : UInt8) : Bool := b == '0'.toUInt8 || b == '1'.toUInt8

/-- A digit in base sixteen. -/
def isHex (b : UInt8) : Bool :=
  isDecimal b || ('a'.toUInt8 ≤ b && b ≤ 'f'.toUInt8) || ('A'.toUInt8 ≤ b && b ≤ 'F'.toUInt8)

/-- The digits in base ten are those that are scanned for. -/
theorem isDecimal_eq_isDigit : isDecimal = isDigit := rfl

theorem isDecimal_of_isOctal {b : UInt8} (h : isOctal b = true) : isDecimal b = true := by
  simp only [isOctal, isDecimal, Bool.and_eq_true, decide_eq_true_eq] at h ⊢
  exact ⟨h.1, UInt8.le_trans h.2 (by decide)⟩

/-- A row of digits, perhaps with underscores between them. -/
structure Digits (isDigit : UInt8 → Bool) where
  text : Bytes
  first : ∀ b ∈ text.head?, isDigit b = true
  last : ∀ b ∈ text.getLast?, isDigit b = true
  inner : ∀ b ∈ text, isDigit b = true ∨ b = '_'.toUInt8
  text_ne : text ≠ []

/-- Which of its two shapes a letter has. -/
inductive LetterCase where
  | small
  | large
deriving DecidableEq, Repr

/-- The letter in one of its shapes. -/
def LetterCase.letter (small large : Char) : LetterCase → UInt8
  | .small => small.toUInt8
  | .large => large.toUInt8

/-- The sign of an exponent. -/
inductive Sign where
  | plus
  | minus
deriving DecidableEq, Repr

def Sign.text : Sign → Bytes
  | plus => ['+'.toUInt8]
  | minus => ['-'.toUInt8]

/-- The text of a part that may be left out. -/
def optional {α : Type} (text : α → Bytes) (part : Option α) : Bytes := (part.map text).getD []

/-- An exponent. Its digits are in base ten, whatever the base of the number. -/
structure Exponent where
  shape : LetterCase
  sign : Option Sign
  digits : Digits isDecimal

/-- The exponent, introduced by a letter. -/
def Exponent.text (small large : Char) (e : Exponent) : Bytes :=
  e.shape.letter small large :: (optional Sign.text e.sign ++ e.digits.text)

/-- The mark of the width of a number with a fraction or an exponent. -/
inductive Width where
  | single (shape : LetterCase)
  | double (shape : LetterCase)
deriving DecidableEq, Repr

def Width.text : Width → Bytes
  | single shape => [shape.letter 'f' 'F']
  | double shape => [shape.letter 'd' 'D']

/-- The mark of a long integer. -/
def longText (shape : LetterCase) : Bytes := [shape.letter 'l' 'L']

/-- The digits of an integer, with what tells their base. -/
inductive Whole where
  | zero
  | decimal (digits : Digits isDecimal) (nonzero : digits.text.head? ≠ some '0'.toUInt8)
  | octal (bars : Nat) (digits : Digits isOctal)
  | hexadecimal (base : LetterCase) (digits : Digits isHex)
  | binary (base : LetterCase) (digits : Digits isBinary)

def Whole.text : Whole → Bytes
  | zero => ['0'.toUInt8]
  | decimal digits _ => digits.text
  | octal bars digits => '0'.toUInt8 :: (List.replicate bars '_'.toUInt8 ++ digits.text)
  | hexadecimal base digits => '0'.toUInt8 :: base.letter 'x' 'X' :: digits.text
  | binary base digits => '0'.toUInt8 :: base.letter 'b' 'B' :: digits.text

/-- The digits of a number in base sixteen that has an exponent. -/
inductive Significand where
  | whole (digits : Digits isHex) (point : Bool)
  | fraction (front : Option (Digits isHex)) (digits : Digits isHex)

def Significand.text : Significand → Bytes
  | whole digits point => digits.text ++ if point then ['.'.toUInt8] else []
  | fraction front digits => optional Digits.text front ++ '.'.toUInt8 :: digits.text

/-- A number that is no integer: the four forms in base ten, and the one in base sixteen. -/
inductive Fractional where
  | pointed (whole : Digits isDecimal) (fraction : Option (Digits isDecimal))
      (exponent : Option Exponent) (width : Option Width)
  | pointFirst (fraction : Digits isDecimal) (exponent : Option Exponent) (width : Option Width)
  | scaled (whole : Digits isDecimal) (exponent : Exponent) (width : Option Width)
  | marked (whole : Digits isDecimal) (exponent : Option Exponent) (width : Width)
  | hexadecimal (base : LetterCase) (significand : Significand) (exponent : Exponent)
      (width : Option Width)

namespace Fractional

/-- The number without the mark of its width. -/
def value : Fractional → Bytes
  | pointed whole fraction exponent _ =>
    whole.text ++ '.'.toUInt8 ::
      (optional Digits.text fraction ++ optional (Exponent.text 'e' 'E') exponent)
  | pointFirst fraction exponent _ =>
    '.'.toUInt8 :: (fraction.text ++ optional (Exponent.text 'e' 'E') exponent)
  | scaled whole exponent _ => whole.text ++ exponent.text 'e' 'E'
  | marked whole exponent _ => whole.text ++ optional (Exponent.text 'e' 'E') exponent
  | hexadecimal base significand exponent _ =>
    '0'.toUInt8 :: base.letter 'x' 'X' :: (significand.text ++ exponent.text 'p' 'P')

/-- The mark of its width. -/
def width : Fractional → Option Width
  | pointed _ _ _ width | pointFirst _ _ width | scaled _ _ width | hexadecimal _ _ _ width => width
  | marked _ _ width => some width

end Fractional

end Numeral

/-- A number as it is written. -/
inductive Numeral where
  | integer (whole : Numeral.Whole) (long : Option Numeral.LetterCase)
  | fractional (number : Numeral.Fractional)

namespace Numeral

open Scan Bytes

def text : Numeral → Bytes
  | integer whole long => whole.text ++ optional longText long
  | fractional number => number.value ++ optional Width.text number.width

/-- The kind of the token that the number is. -/
def kind : Numeral → TokenKind
  | integer _ _ => .intLiteral
  | fractional _ => .floatLiteral

/-! ## Parts of a number -/

theorem isDigitOrBar_of_digit {b : UInt8} (h : isDecimal b = true ∨ b = '_'.toUInt8) :
    isDigitOrBar b = true := by
  simpa [isDigitOrBar, isDecimal_eq_isDigit] using h

namespace Digits

variable {isDigit p : UInt8 → Bool} {rest : Bytes}

/-- A scan over digits stops behind them. -/
theorem dropWhile (d : Digits isDigit) (hp : ∀ b, isDigit b = true ∨ b = '_'.toUInt8 → p b = true)
    (hrest : ∀ b ∈ rest.head?, p b = false) : (d.text ++ rest).dropWhile p = rest := by
  rw [List.dropWhile_append_of_pos fun b hb => hp b (d.inner b hb)]
  cases rest with
  | nil => rfl
  | cons b rest => exact List.dropWhile_cons_of_neg (by simp [hrest b rfl])

theorem exists_first (d : Digits isDigit) : ∃ b tail, d.text = b :: tail ∧ isDigit b = true := by
  obtain ⟨b, tail, htext⟩ := List.exists_cons_of_ne_nil d.text_ne
  exact ⟨b, tail, htext, d.first b (by simp [htext])⟩

theorem exists_last (d : Digits isDigit) : ∃ b, d.text.getLast? = some b ∧ isDigit b = true := by
  cases hlast : d.text.getLast? with
  | none => exact absurd (List.getLast?_eq_none_iff.mp hlast) d.text_ne
  | some b => exact ⟨b, rfl, d.last b hlast⟩

end Digits

/-- The exponent and the mark behind the digits in front of them. -/
def tail (small large : Char) (exponent : Option Exponent) (width : Option Width) : Bytes :=
  optional (Exponent.text small large) exponent ++ optional Width.text width

theorem width_head (width : Option Width) :
    ∀ b ∈ (optional Width.text width).head?,
      b ∈ ['f'.toUInt8, 'F'.toUInt8, 'd'.toUInt8, 'D'.toUInt8] := by
  rcases width with _ | ⟨_ | _⟩ | ⟨_ | _⟩ <;> decide

theorem tail_head (small large : Char) (exponent : Option Exponent) (width : Option Width) :
    ∀ b ∈ (tail small large exponent width).head?,
      b ∈ [small.toUInt8, large.toUInt8, 'f'.toUInt8, 'F'.toUInt8, 'd'.toUInt8, 'D'.toUInt8] := by
  intro b hb
  cases exponent with
  | none =>
      have hmark := width_head width b (by simpa [tail, optional] using hb)
      simp only [List.mem_cons, List.not_mem_nil, or_false] at hmark ⊢
      tauto
  | some e =>
      have heq : b = e.shape.letter small large := by
        simpa [tail, optional, Exponent.text, eq_comm] using hb
      cases hshape : e.shape <;> simp [heq, hshape, LetterCase.letter]

/-- A sign in front of digits is skipped. -/
theorem skipAny_sign (sign : Option Sign) (digits : Digits isDecimal) (rest : Bytes) :
    skipAny ['+', '-'] (optional Sign.text sign ++ (digits.text ++ rest)) =
      digits.text ++ rest := by
  cases sign with
  | some sign => cases sign <;> rfl
  | none =>
      obtain ⟨b, more, htext, hb⟩ := digits.exists_first
      refine if_neg (Bool.eq_false_iff.mp (Lexeme.startsWithAny_eq_false ?_))
      rw [optional, Option.map_none, Option.getD_none, List.nil_append, htext]
      rintro _ ⟨⟩ c hc rfl
      simp only [List.mem_cons, List.not_mem_nil, or_false] at hc
      rcases hc with rfl | rfl <;> exact absurd hb (by decide)

/-- An exponent is taken with its sign and its digits. -/
theorem exponent_tail {small large : Char}
    (hmarks : ∀ c ∈ [small, large],
      c.toUInt8 ∉ ['f'.toUInt8, 'F'.toUInt8, 'd'.toUInt8, 'D'.toUInt8])
    (exponent : Option Exponent) (width : Option Width) :
    Scan.exponent [small, large] (tail small large exponent width) =
      (exponent.isSome, optional Width.text width) := by
  cases exponent with
  | none =>
      refine if_neg (Bool.eq_false_iff.mp (Lexeme.startsWithAny_eq_false fun b hb c hc heq => ?_))
      exact hmarks c hc (heq ▸ width_head width b hb)
  | some e =>
      have hstart : startsWithAny [small, large] (tail small large (some e) width) = true := by
        cases hshape : e.shape <;>
          simp [tail, optional, Exponent.text, hshape, LetterCase.letter, startsWithAny, startsWith]
      have hbehind : (tail small large (some e) width).drop 1 =
          optional Sign.text e.sign ++ (e.digits.text ++ optional Width.text width) := by
        simp [tail, optional, Exponent.text]
      have hdigits : ∀ b ∈ ['f'.toUInt8, 'F'.toUInt8, 'd'.toUInt8, 'D'.toUInt8],
          isDigitOrBar b = false := by decide
      rw [Scan.exponent, if_pos hstart, hbehind, skipAny_sign,
        e.digits.dropWhile (fun _ => isDigitOrBar_of_digit)
          fun b hb => hdigits b (width_head width b hb)]
      rfl

/-! ## Numbers in base ten -/

/-- What a number in base ten is depends on what stands behind its first digits. -/
theorem decimalNumber_congr {input rest : Bytes}
    (h : input.dropWhile isDigitOrBar = rest.dropWhile isDigitOrBar) :
    decimalNumber input = decimalNumber rest := by
  rw [decimalNumber, decimalNumber, h]

theorem decimalEnd_width (width : Option Width) :
    decimalEnd true (optional Width.text width) = (.floatLiteral, []) := by
  rcases width with _ | ⟨_ | _⟩ | ⟨_ | _⟩ <;> rfl

theorem tail_stops (exponent : Option Exponent) (width : Option Width) :
    ∀ b ∈ (tail 'e' 'E' exponent width).head?, isDigitOrBar b = false ∧ b ≠ '.'.toUInt8 ∧
      ∀ c ∈ ['x', 'X', 'b', 'B'], b ≠ c.toUInt8 := by
  have hletters : ∀ b ∈ ['e'.toUInt8, 'E'.toUInt8, 'f'.toUInt8, 'F'.toUInt8, 'd'.toUInt8,
      'D'.toUInt8], isDigitOrBar b = false ∧ b ≠ '.'.toUInt8 ∧
        ∀ c ∈ ['x', 'X', 'b', 'B'], b ≠ c.toUInt8 := by decide
  exact fun b hb => hletters b (tail_head 'e' 'E' exponent width b hb)

theorem dropWhile_of_stops {p : UInt8 → Bool} {rest : Bytes} (h : ∀ b ∈ rest.head?, p b = false) :
    rest.dropWhile p = rest := by
  cases rest with
  | nil => rfl
  | cons b rest => exact List.dropWhile_cons_of_neg (by simp [h b rfl])

/-- Behind its digits a number goes on with an exponent or with a mark. -/
theorem decimalNumber_tail {exponent : Option Exponent} {width : Option Width}
    (h : exponent.isSome = true ∨ width.isSome = true) :
    decimalNumber (tail 'e' 'E' exponent width) = (.floatLiteral, []) := by
  have hwhole := dropWhile_of_stops fun b hb => (tail_stops exponent width b hb).1
  have hpoint : hasPoint (tail 'e' 'E' exponent width) = false := by
    have hdot : startsWith '.' (tail 'e' 'E' exponent width) = false := by
      rw [startsWith, beq_eq_false_iff_ne]
      exact fun hstart => (tail_stops exponent width _ hstart).2.1 rfl
    rw [hasPoint, hdot, Bool.false_and]
  have hpower : Scan.exponent ['e', 'E'] (tail 'e' 'E' exponent width) =
      (exponent.isSome, optional Width.text width) := exponent_tail (by decide) exponent width
  rw [decimalNumber]
  simp only [hwhole, hpoint, fraction, Bool.false_eq_true, if_false, Bool.false_or, hpower]
  cases exponent with
  | some e => exact decimalEnd_width width
  | none =>
      rcases width with _ | ⟨_ | _⟩ | ⟨_ | _⟩
      · simp at h
      all_goals rfl

/-- Behind its digits a number goes on with a point. -/
theorem decimalNumber_point (digits : Option (Digits isDecimal)) (exponent : Option Exponent)
    (width : Option Width) :
    decimalNumber ('.'.toUInt8 :: (optional Digits.text digits ++ tail 'e' 'E' exponent width)) =
      (.floatLiteral, []) := by
  have hstops := tail_stops exponent width
  have hdigits : (optional Digits.text digits ++ tail 'e' 'E' exponent width).dropWhile
      isDigitOrBar = tail 'e' 'E' exponent width := by
    cases digits with
    | none => exact dropWhile_of_stops fun b hb => (hstops b hb).1
    | some d => exact d.dropWhile (fun _ => isDigitOrBar_of_digit) fun b hb => (hstops b hb).1
  have hdot : startsWith '.' (optional Digits.text digits ++ tail 'e' 'E' exponent width) =
      false := by
    rw [startsWith, beq_eq_false_iff_ne]
    cases digits with
    | none => exact fun hstart => (hstops _ hstart).2.1 rfl
    | some d =>
        obtain ⟨b, more, htext, hb⟩ := d.exists_first
        rw [optional, Option.map_some, Option.getD_some, htext]
        rintro ⟨⟩
        exact absurd hb (by decide)
  have hpoint : hasPoint ('.'.toUInt8 ::
      (optional Digits.text digits ++ tail 'e' 'E' exponent width)) = true := by
    rw [hasPoint, List.drop_one, List.tail_cons, hdot]
    rfl
  have hwhole := @dropWhile_of_stops isDigitOrBar
    ('.'.toUInt8 :: (optional Digits.text digits ++ tail 'e' 'E' exponent width))
    (by rintro _ ⟨⟩; decide)
  have hpower : Scan.exponent ['e', 'E'] (tail 'e' 'E' exponent width) =
      (exponent.isSome, optional Width.text width) := exponent_tail (by decide) exponent width
  rw [decimalNumber]
  simp only [hwhole, hpoint, fraction, if_true, List.drop_one, List.tail_cons, hdigits, hpower,
    Bool.true_or]
  exact decimalEnd_width width

theorem decimalNumber_long (long : Option LetterCase) :
    decimalNumber (optional longText long) = (.intLiteral, []) := by
  rcases long with _ | _ | _ <;> rfl

/-- Digits in base ten are read with what stands behind them. -/
theorem digits_readsBefore {b : UInt8} {digits rest : Bytes} {kind : TokenKind}
    (hb : isDecimal b = true) (hdigits : ∀ d ∈ digits, isDigitOrBar d = true)
    (hrest : ∀ z ∈ rest.head?, isDigitOrBar z = false ∧ ∀ c ∈ ['x', 'X', 'b', 'B'], z ≠ c.toUInt8)
    (h : decimalNumber rest = (kind, [])) :
    Lexeme.ReadsBefore ⟨kind, b :: (digits ++ rest)⟩ [] := by
  obtain ⟨hnumber, hwhole⟩ :=
    Lexeme.number_eq_decimal (isDigitOrBar_of_digit (.inl hb)) hdigits hrest
  refine ⟨b, digits ++ rest, rfl, ?_⟩
  have hbehind := hwhole.trans (dropWhile_of_stops fun z hz => (hrest z hz).1).symm
  rw [List.append_nil, token_of_startsNumber (.inl hb), hnumber, decimalNumber_congr hbehind, h]

theorem Digits.readsBefore (d : Digits isDecimal) {rest : Bytes} {kind : TokenKind}
    (hrest : ∀ z ∈ rest.head?, isDigitOrBar z = false ∧ ∀ c ∈ ['x', 'X', 'b', 'B'], z ≠ c.toUInt8)
    (h : decimalNumber rest = (kind, [])) : Lexeme.ReadsBefore ⟨kind, d.text ++ rest⟩ [] := by
  obtain ⟨b, digits, htext, hb⟩ := d.exists_first
  rw [htext]
  exact digits_readsBefore hb
    (fun c hc => isDigitOrBar_of_digit (d.inner c (by simp [htext, hc]))) hrest h

/-! ## Numbers in base sixteen and two -/

theorem hexNumber_congr {input rest : Bytes}
    (h : input.dropWhile isHexOrBar = rest.dropWhile isHexOrBar) :
    hexNumber input = hexNumber rest := by
  rw [hexNumber, hexNumber, h]

theorem scaled_stops (e : Exponent) (width : Option Width) :
    ∀ b ∈ (tail 'p' 'P' (some e) width).head?, isHexOrBar b = false ∧ b ≠ '.'.toUInt8 := by
  rintro _ ⟨⟩
  cases e.shape <;> decide

theorem hexEnd_width (width : Option Width) :
    hexEnd true (optional Width.text width) = (.floatLiteral, []) := by
  rcases width with _ | ⟨_ | _⟩ | ⟨_ | _⟩ <;> rfl

theorem isHexOrBar_of_digit {b : UInt8} (h : isHex b = true ∨ b = '_'.toUInt8) :
    isHexOrBar b = true := by
  rcases h with h | rfl
  · simp only [isHex, isDecimal_eq_isDigit, Bool.or_eq_true] at h
    simp only [isHexOrBar, isDigitOrBar, Bool.or_eq_true]
    tauto
  · decide

theorem exponent_scaled (e : Exponent) (width : Option Width) :
    Scan.exponent ['p', 'P'] (tail 'p' 'P' (some e) width) = (true, optional Width.text width) :=
  exponent_tail (by decide) (some e) width

theorem hexNumber_tail (e : Exponent) (width : Option Width) :
    hexNumber (tail 'p' 'P' (some e) width) = (.floatLiteral, []) := by
  have hwhole := dropWhile_of_stops fun b hb => (scaled_stops e width b hb).1
  have hpoint : startsWith '.' (tail 'p' 'P' (some e) width) = false := by
    rw [startsWith, beq_eq_false_iff_ne]
    exact fun hstart => (scaled_stops e width _ hstart).2 rfl
  rw [hexNumber]
  simp only [hwhole, hpoint, fraction, Bool.false_eq_true, if_false, Bool.false_or,
    exponent_scaled]
  exact hexEnd_width width

theorem hexNumber_point (digits : Option (Digits isHex)) (e : Exponent) (width : Option Width) :
    hexNumber ('.'.toUInt8 :: (optional Digits.text digits ++ tail 'p' 'P' (some e) width)) =
      (.floatLiteral, []) := by
  have hstops := scaled_stops e width
  have hdigits : (optional Digits.text digits ++ tail 'p' 'P' (some e) width).dropWhile
      isHexOrBar = tail 'p' 'P' (some e) width := by
    cases digits with
    | none => exact dropWhile_of_stops fun b hb => (hstops b hb).1
    | some d => exact d.dropWhile (fun _ => isHexOrBar_of_digit) fun b hb => (hstops b hb).1
  have hwhole := @dropWhile_of_stops isHexOrBar
    ('.'.toUInt8 :: (optional Digits.text digits ++ tail 'p' 'P' (some e) width))
    (by rintro _ ⟨⟩; decide)
  have hpoint : startsWith '.' ('.'.toUInt8 ::
      (optional Digits.text digits ++ tail 'p' 'P' (some e) width)) = true := rfl
  rw [hexNumber]
  simp only [hwhole, hpoint, fraction, if_true, List.drop_one, List.tail_cons, hdigits,
    exponent_scaled, Bool.true_or]
  exact hexEnd_width width

theorem Significand.hexNumber (s : Significand) (e : Exponent) (width : Option Width) :
    Scan.hexNumber (s.text ++ tail 'p' 'P' (some e) width) = (.floatLiteral, []) := by
  have hstops := scaled_stops e width
  -- what stands behind the first digits decides, and digits only delay it
  have hdigits : ∀ (d : Digits isHex) {rest : Bytes}, (∀ b ∈ rest.head?, isHexOrBar b = false) →
      Scan.hexNumber (d.text ++ rest) = Scan.hexNumber rest := fun d rest hrest =>
    hexNumber_congr (by
      rw [d.dropWhile (fun _ => isHexOrBar_of_digit) hrest, dropWhile_of_stops hrest])
  cases s with
  | whole digits point =>
      cases point with
      | false =>
          rw [Significand.text, if_neg (by decide), List.append_nil,
            hdigits digits fun b hb => (hstops b hb).1, hexNumber_tail]
      | true =>
          rw [Significand.text, if_pos rfl, List.append_assoc, hdigits digits]
          · exact hexNumber_point none e width
          · rintro _ ⟨⟩
            decide
  | fraction front digits =>
      have hpoint := hexNumber_point (some digits) e width
      rw [Significand.text, List.append_assoc]
      cases front with
      | none => exact hpoint
      | some d =>
          refine (hdigits d ?_).trans hpoint
          rintro _ ⟨⟩
          decide

theorem hexNumber_long (digits : Digits isHex) (long : Option LetterCase) :
    hexNumber (digits.text ++ optional longText long) = (.intLiteral, []) := by
  have hlong : ∀ b ∈ (optional longText long).head?, isHexOrBar b = false := by
    rcases long with _ | _ | _ <;> decide
  have hbehind := digits.dropWhile (fun _ => isHexOrBar_of_digit) hlong
  rw [hexNumber_congr (hbehind.trans (dropWhile_of_stops hlong).symm)]
  rcases long with _ | _ | _ <;> rfl

theorem binaryNumber_long (digits : Digits isBinary) (long : Option LetterCase) :
    binaryNumber (digits.text ++ optional longText long) = (.intLiteral, []) := by
  have hlong : ∀ b ∈ (optional longText long).head?, isBinaryOrBar b = false := by
    rcases long with _ | _ | _ <;> decide
  rw [binaryNumber, digits.dropWhile (by simp [isBinary, isBinaryOrBar]) hlong]
  rcases long with _ | _ | _ <;> rfl

/-- Behind a zero a letter tells the base. -/
theorem readsBefore_of_hexNumber {base : LetterCase} {input : Bytes} {kind : TokenKind}
    (h : hexNumber input = (kind, [])) :
    Lexeme.ReadsBefore ⟨kind, '0'.toUInt8 :: base.letter 'x' 'X' :: input⟩ [] := by
  refine ⟨_, _, rfl, ?_⟩
  rw [List.append_nil, token_of_startsNumber (.inl (by decide)), ← h]
  cases base <;> rfl

theorem readsBefore_of_binaryNumber {base : LetterCase} {input : Bytes} {kind : TokenKind}
    (h : binaryNumber input = (kind, [])) :
    Lexeme.ReadsBefore ⟨kind, '0'.toUInt8 :: base.letter 'b' 'B' :: input⟩ [] := by
  refine ⟨_, _, rfl, ?_⟩
  rw [List.append_nil, token_of_startsNumber (.inl (by decide)), ← h]
  cases base <;> rfl

/-! ## All numbers -/

theorem Whole.reads (whole : Whole) (long : Option LetterCase) :
    Lexeme.ReadsBefore ⟨.intLiteral, whole.text ++ optional longText long⟩ [] := by
  have hlong := decimalNumber_long long
  have hstops : ∀ z ∈ (optional longText long).head?, isDigitOrBar z = false ∧
      ∀ c ∈ ['x', 'X', 'b', 'B'], z ≠ c.toUInt8 := by
    rcases long with _ | _ | _ <;> decide
  cases whole with
  | zero => exact @digits_readsBefore _ [] _ _ (by decide) nofun hstops hlong
  | decimal digits => exact digits.readsBefore hstops hlong
  | octal bars digits =>
      refine digits_readsBefore (by decide) (fun b hb => ?_) hstops hlong
      rcases List.mem_append.mp hb with hb | hb
      · rw [List.eq_of_mem_replicate hb]
        decide
      · exact isDigitOrBar_of_digit ((digits.inner b hb).imp_left isDecimal_of_isOctal)
  | hexadecimal base digits => exact readsBefore_of_hexNumber (hexNumber_long digits long)
  | binary base digits => exact readsBefore_of_binaryNumber (binaryNumber_long digits long)

theorem Fractional.reads (number : Fractional) :
    Lexeme.ReadsBefore ⟨.floatLiteral, number.value ++ optional Width.text number.width⟩ [] := by
  have hpoint : ∀ {rest : Bytes}, ∀ z ∈ ('.'.toUInt8 :: rest).head?, isDigitOrBar z = false ∧
      ∀ c ∈ ['x', 'X', 'b', 'B'], z ≠ c.toUInt8 := by
    rintro _ _ ⟨⟩
    decide
  have hstops : ∀ exponent width, ∀ z ∈ (tail 'e' 'E' exponent width).head?,
      isDigitOrBar z = false ∧ ∀ c ∈ ['x', 'X', 'b', 'B'], z ≠ c.toUInt8 :=
    fun exponent width z hz => (tail_stops exponent width z hz).imp_right And.right
  cases number with
  | pointed whole fraction exponent width =>
      simp only [value, Fractional.width, List.append_assoc, List.cons_append]
      exact whole.readsBefore hpoint (decimalNumber_point fraction exponent width)
  | pointFirst fraction exponent width =>
      simp only [value, Fractional.width, List.append_assoc, List.cons_append]
      obtain ⟨b, more, htext, hb⟩ := fraction.exists_first
      rw [isDecimal_eq_isDigit] at hb
      refine ⟨_, _, rfl, ?_⟩
      rw [List.append_nil, token_of_startsNumber (.inr ⟨rfl, by simp [htext, hb]⟩), number,
        if_neg fun h => absurd h.1 (by decide), if_neg fun h => absurd h.1 (by decide)]
      exact decimalNumber_point (some fraction) exponent width
  | scaled whole exponent width =>
      simp only [value, Fractional.width, List.append_assoc]
      exact whole.readsBefore (hstops (some exponent) width)
        (@decimalNumber_tail (some exponent) width (.inl rfl))
  | marked whole exponent width =>
      simp only [value, Fractional.width, List.append_assoc]
      exact whole.readsBefore (hstops exponent (some width))
        (@decimalNumber_tail exponent (some width) (.inr rfl))
  | hexadecimal base significand exponent width =>
      simp only [value, Fractional.width, List.append_assoc, List.cons_append]
      exact readsBefore_of_hexNumber (significand.hexNumber exponent width)

/-- A number is one token, up to its last byte. -/
theorem reads (n : Numeral) : Lexeme.ReadsBefore ⟨n.kind, n.text⟩ [] := by
  cases n with
  | integer whole long => exact whole.reads long
  | fractional number => exact number.reads

end Numeral

end DotCompletion
