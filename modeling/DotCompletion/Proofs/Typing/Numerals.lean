import DotCompletion.Proofs.Grammar.WholeInput
import DotCompletion.Proofs.Token.LastWord
import DotCompletion.Proofs.Token.Numerals
import DotCompletion.Proofs.Tree.Numbering
import DotCompletion.Typing.Inference

/-!
# Numbers and their types

A number alone is a source of one token, a tree of one leaf, and an expression whose type its form
and its mark tell (`Numeral.typed`). The type is read off the last byte of the token, so a digit
must never be taken for a mark.
-/

namespace DotCompletion

/-! ## A literal alone -/

/-- Where a literal alone is ahead it is the expression. -/
theorem Rule.reads_literal {t : Token} (ht : t.kind ∈ Grammar.literals) (eof : Token) :
    ∃ c, Rule.expression.Reads [] ⟨[t], eof, none, 0⟩ [.leaf .literal t] c := by
  obtain ⟨kind, span, text⟩ := t
  simp only [Grammar.literals, List.mem_cons, List.not_mem_nil, or_false] at ht
  rcases ht with rfl | rfl | rfl | rfl | rfl | rfl | rfl | rfl <;> exact ⟨_, 8, rfl⟩

theorem Entry.parse_literal {l : Lexeme} (h : l.ReadsBefore [])
    (hkind : l.kind ∈ Grammar.literals) :
    Entry.expression.parse l.text = .leaf .literal (l.place .origin) := by
  have hvisible : ∀ k ∈ Grammar.literals, k.isTrivia = false := by decide
  have hsource : Cursor.ofSource l.text =
      ⟨[l.place .origin], .endAt (Position.origin.advance l.text), none, 0⟩ := by
    rw [Cursor.ofSource, Token.significant, h.alone,
      List.filter_singleton, Lexeme.place, hvisible _ hkind]
    rfl
  obtain ⟨c, hliteral⟩ :=
    Rule.reads_literal (t := l.place .origin) hkind (.endAt (Position.origin.advance l.text))
  rw [← hsource] at hliteral
  exact Entry.parse_eq hliteral

/-- The type of a literal does not depend on anything else. -/
theorem Tree.typeOf_literal (source : Bytes) (t : Token) :
    (Tree.ofNode source (some (.leaf .literal t))).typeOf 0 = literalType t := by
  have hroot := @Node.Numbered.root (.leaf .literal t)
  have hstep : (Tree.ofNode source (some (.leaf .literal t))).step 0 = .always (literalType t) := by
    rw [step, kind?_eq hroot, token?_eq hroot]
    rfl
  rw [typeOf, infer, hstep]
  rfl

namespace Numeral

open Scan Bytes

/-! ## The last byte -/

theorem Digits.exists_last_append {isDigit : UInt8 → Bool} (d : Digits isDigit) (front : Bytes) :
    ∃ b, (front ++ d.text).getLast? = some b ∧ isDigit b = true := by
  obtain ⟨b, hlast, hb⟩ := d.exists_last
  exact ⟨b, by rw [List.getLast?_append, hlast, Option.some_or], hb⟩

theorem Exponent.exists_last_append (e : Exponent) (small large : Char) (front : Bytes) :
    ∃ b, (front ++ e.text small large).getLast? = some b ∧ isDecimal b = true := by
  obtain ⟨b, hlast, hb⟩ := e.digits.exists_last_append
    (front ++ e.shape.letter small large :: optional Sign.text e.sign)
  exact ⟨b, by rw [← hlast, Exponent.text]; simp, hb⟩

theorem isHex_of_isBinary {b : UInt8} (h : isBinary b = true) : isHex b = true := by
  simp only [isBinary, Bool.or_eq_true, beq_iff_eq] at h
  rcases h with rfl | rfl <;> decide

theorem isHex_of_isDecimal {b : UInt8} (h : isDecimal b = true) : isHex b = true := by
  simp [isHex, h]

theorem Whole.exists_last (whole : Whole) :
    ∃ b, whole.text.getLast? = some b ∧ isHex b = true := by
  cases whole with
  | zero => exact ⟨_, rfl, by decide⟩
  | decimal digits =>
      exact (digits.exists_last_append []).imp fun b => And.imp_right isHex_of_isDecimal
  | octal bars digits =>
      obtain ⟨b, hlast, hb⟩ :=
        digits.exists_last_append ('0'.toUInt8 :: List.replicate bars '_'.toUInt8)
      exact ⟨b, hlast, isHex_of_isDecimal (isDecimal_of_isOctal hb)⟩
  | hexadecimal base digits =>
      exact digits.exists_last_append ['0'.toUInt8, base.letter 'x' 'X']
  | binary base digits =>
      obtain ⟨b, hlast, hb⟩ := digits.exists_last_append ['0'.toUInt8, base.letter 'b' 'B']
      exact ⟨b, hlast, isHex_of_isBinary hb⟩

/-- What a number with a fraction or an exponent may end in, if not in a mark. -/
def isPlainEnd (b : UInt8) : Bool := isDecimal b || b == '.'.toUInt8

theorem isPlainEnd_of_isDecimal {b : UInt8} (h : isDecimal b = true) : isPlainEnd b = true := by
  rw [isPlainEnd, h, Bool.true_or]

/-- A number without a mark ends in a digit in base ten, or in its point: the digits of base sixteen
have an exponent behind them. -/
theorem Fractional.exists_last (number : Fractional) (hwidth : number.width = none) :
    ∃ b, number.value.getLast? = some b ∧ isPlainEnd b = true := by
  have hdigits : ∀ (d : Digits isDecimal) (front : Bytes),
      ∃ b, (front ++ d.text).getLast? = some b ∧ isPlainEnd b = true := fun d front =>
    (d.exists_last_append front).imp fun _ => And.imp_right isPlainEnd_of_isDecimal
  have hpower : ∀ (e : Exponent) (small large : Char) (front : Bytes),
      ∃ b, (front ++ e.text small large).getLast? = some b ∧ isPlainEnd b = true :=
    fun e small large front =>
      (e.exists_last_append small large front).imp fun _ => And.imp_right isPlainEnd_of_isDecimal
  cases number with
  | pointed whole fraction exponent width =>
      cases exponent with
      | some e =>
          obtain ⟨b, hlast, hb⟩ :=
            hpower e 'e' 'E' (whole.text ++ '.'.toUInt8 :: optional Digits.text fraction)
          exact ⟨b, by rw [← hlast, value, List.append_assoc]; rfl, hb⟩
      | none =>
          cases fraction with
          | some d =>
              obtain ⟨b, hlast, hb⟩ := hdigits d (whole.text ++ ['.'.toUInt8])
              exact ⟨b, by rw [← hlast, List.append_assoc]; simp [value, optional], hb⟩
          | none => exact ⟨'.'.toUInt8, by simp [value, optional], by decide⟩
  | pointFirst fraction exponent width =>
      cases exponent with
      | some e =>
          obtain ⟨b, hlast, hb⟩ := hpower e 'e' 'E' ('.'.toUInt8 :: fraction.text)
          exact ⟨b, by rw [← hlast]; rfl, hb⟩
      | none =>
          obtain ⟨b, hlast, hb⟩ := hdigits fraction ['.'.toUInt8]
          exact ⟨b, by rw [← hlast]; simp [value, optional], hb⟩
  | scaled whole exponent width => exact hpower exponent 'e' 'E' whole.text
  | marked whole exponent width => cases hwidth
  | hexadecimal base significand exponent width =>
      obtain ⟨b, hlast, hb⟩ := hpower exponent 'p' 'P'
        ('0'.toUInt8 :: base.letter 'x' 'X' :: significand.text)
      exact ⟨b, by rw [← hlast]; rfl, hb⟩

/-! ## Types -/

/-- The type of a number: that of its mark, or else the usual one of its form. -/
def type : Numeral → StaticType
  | integer _ none => .int
  | integer _ (some _) => .long
  | fractional number =>
    match number.width with
    | some (.single _) => .float
    | some (.double _) | none => .double

/-- The token of a number alone. -/
def token (n : Numeral) : Token := Lexeme.place ⟨n.kind, n.text⟩ .origin

/-- A text whose last byte may be no mark has none. -/
theorem any_endsWith_eq_false {text : Bytes} {p : UInt8 → Bool} {marks : List Char}
    (hlast : ∃ b, text.getLast? = some b ∧ p b = true)
    (hmarks : ∀ c ∈ marks, p c.toUInt8 = false) : marks.any (Bytes.endsWith · text) = false := by
  obtain ⟨b, hlast, hb⟩ := hlast
  rw [List.any_eq_false]
  intro c hc hend
  rw [Bytes.endsWith, hlast, beq_iff_eq, Option.some_inj] at hend
  rw [hend, hmarks c hc] at hb
  cases hb

/-- A text whose last byte is a mark has it. -/
theorem any_endsWith_append {mark : UInt8} {marks : List Char} (front : Bytes)
    (hmark : marks.any (mark == ·.toUInt8) = true) :
    marks.any (Bytes.endsWith · (front ++ [mark])) = true := by
  simpa [Bytes.endsWith] using hmark

/-- The last byte of a number tells its type. -/
theorem literalType_token (n : Numeral) : Tree.literalType n.token = some n.type := by
  cases n with
  | integer whole long =>
      cases long with
      | none =>
          have hplain : ['l', 'L'].any (Bytes.endsWith · (whole.text ++ [])) = false := by
            rw [List.append_nil]
            exact any_endsWith_eq_false whole.exists_last (by decide)
          exact congrArg some (if_neg (Bool.eq_false_iff.mp hplain))
      | some shape =>
          have hmark : ['l', 'L'].any (Bytes.endsWith · (whole.text ++ longText shape)) = true :=
            any_endsWith_append whole.text (by cases shape <;> decide)
          exact congrArg some (if_pos hmark)
  | fractional number =>
      have hform : Tree.literalType (fractional number).token = some (if ['f', 'F'].any
          (Bytes.endsWith · (number.value ++ optional Width.text number.width)) then
            .float else .double) := rfl
      rw [hform, type]
      rcases hwidth : number.width with _ | shape | shape
      · have hplain : ['f', 'F'].any (Bytes.endsWith · (number.value ++ [])) = false := by
          rw [List.append_nil]
          exact any_endsWith_eq_false (number.exists_last hwidth) (by decide)
        exact congrArg some (if_neg (Bool.eq_false_iff.mp hplain))
      · exact congrArg some (if_pos (any_endsWith_append number.value (by cases shape <;> decide)))
      · have hmark : ['f', 'F'].any (Bytes.endsWith · (number.value ++ [shape.letter 'd' 'D'])) =
            false :=
          any_endsWith_eq_false ⟨_, by rw [List.getLast?_concat], beq_self_eq_true _⟩
            (by cases shape <;> decide)
        exact congrArg some (if_neg (Bool.eq_false_iff.mp hmark))

/-- A number alone is one token in front of the end, of the kind its form tells. As an expression it
is a literal, and has the type that its form and its mark tell. -/
theorem typed (n : Numeral) :
    Token.ofSource n.text = [n.token, .endAt (Position.origin.advance n.text)] ∧
      Entry.expression.parse n.text = .leaf .literal n.token ∧
      (Tree.parse .expression n.text).root? = some 0 ∧
      (Tree.parse .expression n.text).typeOf 0 = some n.type := by
  have hparse : Entry.expression.parse n.text = .leaf .literal n.token :=
    @Entry.parse_literal ⟨n.kind, n.text⟩ n.reads (by cases n <;> simp [kind, Grammar.literals])
  have htree : Tree.parse .expression n.text =
      Tree.ofNode n.text (some (.leaf .literal n.token)) := by
    rw [Tree.parse, hparse]
  refine ⟨?_, hparse, ?_, ?_⟩
  · rw [Token.ofSource, n.reads.alone, List.singleton_append, token]
  · rw [htree, Tree.root?_ofNode]
  · rw [htree, Tree.typeOf_literal, n.literalType_token]

end Numeral

end DotCompletion
