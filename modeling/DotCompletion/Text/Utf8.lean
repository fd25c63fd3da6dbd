import DotCompletion.Text.Bytes

/-!
# Reading bytes as text

A byte string is cut from left to right into characters. Where no well-formed
character starts, exactly one byte is set aside and reading goes on behind it,
so every byte string has exactly one such reading and no byte is lost.
-/

namespace DotCompletion

/-- A unit of a byte string read as text: a character, or a byte at which no
character starts. -/
inductive Piece where
  | char (c : Char)
  | stray (b : UInt8)
deriving DecidableEq, Repr

namespace Piece

/-- The character shown for a piece: U+FFFD stands for a stray byte. -/
def toChar : Piece → Char
  | char c => c
  | stray _ => '\uFFFD'

/-- The character of a piece that is one. -/
def char? : Piece → Option Char
  | char c => some c
  | stray _ => none

/-- The number of bytes a piece takes. -/
def size : Piece → Nat
  | char c => c.utf8Size
  | stray _ => 1

/-- The bytes a piece was read from. -/
def toBytes : Piece → Bytes
  | char c => String.utf8EncodeChar c
  | stray b => [b]

/-- The number of UTF-16 code units of a piece: two beyond the basic plane. -/
def units : Piece → Nat
  | char c => if 0x10000 ≤ c.toNat then 2 else 1
  | stray _ => 1

end Piece

namespace Utf8

/-- The value of the first `n` continuation bytes, appended in base 64 to
`value`; there must be that many. -/
def continued : Nat → Nat → Bytes → Option Nat
  | 0, value, _ => some value
  | _ + 1, _, [] => none
  | n + 1, value, b :: rest =>
      if 0x80 ≤ b ∧ b < 0xC0 then continued n (value * 64 + (b.toNat - 0x80)) rest
      else none

/-- A lead byte announces the number of continuation bytes, the high bits of
the code point and the least code point that needs this length. -/
def lead? (b : UInt8) : Option (Nat × Nat × Nat) :=
  if b < 0x80 then some (0, b.toNat, 0)
  else if b < 0xC0 then none
  else if b < 0xE0 then some (1, b.toNat - 0xC0, 0x80)
  else if b < 0xF0 then some (2, b.toNat - 0xE0, 0x800)
  else if b < 0xF8 then some (3, b.toNat - 0xF0, 0x10000)
  else none

/-- The character that starts with `b`, and how many bytes of `rest` belong to
it. Overlong forms, surrogates and values past U+10FFFF are no characters. -/
def char? (b : UInt8) (rest : Bytes) : Option (Char × Nat) := do
  let (n, high, least) ← lead? b
  let value ← continued n high rest
  if least ≤ value ∧ value.isValidChar then some (Char.ofNat value, n) else none

/-- The piece that starts with `b`, and how many bytes of `rest` it takes. -/
def head (b : UInt8) (rest : Bytes) : Piece × Nat :=
  match char? b rest with
  | some (c, n) => (.char c, n)
  | none => (.stray b, 0)

/-- The reading of a byte string. -/
def pieces : Bytes → List Piece
  | [] => []
  | b :: rest => (head b rest).1 :: pieces (rest.drop (head b rest).2)
termination_by bytes => bytes.length
decreasing_by simp only [List.length_drop, List.length_cons]; omega

/-- The text of a byte string, with U+FFFD in place of every stray byte. -/
def toText (bytes : Bytes) : String :=
  String.ofList ((pieces bytes).map Piece.toChar)

/-- The text of a byte string without stray bytes. -/
def text? (bytes : Bytes) : Option String :=
  ((pieces bytes).mapM Piece.char?).map String.ofList

end Utf8

end DotCompletion
