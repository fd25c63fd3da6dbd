import DotCompletion.Text.Utf8

/-!
# Blank text

The characters with the Unicode property White_Space. A stray byte is never
blank.
-/

namespace DotCompletion.Blank

/-- The character is white space. -/
def isBlank (c : Char) : Bool :=
  let n := c.toNat
  (0x09 ≤ n && n ≤ 0x0D) || n == 0x20 || n == 0x85 || n == 0xA0 || n == 0x1680
    || (0x2000 ≤ n && n ≤ 0x200A) || n == 0x2028 || n == 0x2029 || n == 0x202F
    || n == 0x205F || n == 0x3000

/-- The piece is a white-space character. -/
def isBlankPiece : Piece → Bool
  | .char c => isBlank c
  | .stray _ => false

/-- Nothing but white space. -/
def isBlankText (bytes : Bytes) : Bool :=
  (Utf8.pieces bytes).all isBlankPiece

end DotCompletion.Blank
