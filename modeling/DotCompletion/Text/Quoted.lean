import DotCompletion.Text.Utf8
import DotCompletion.Text.Printable

/-!
# Quoted text

Messages and listings show text between double quotes. Quotes, backslashes and
everything that is not printable are written as escapes, with lower-case
hexadecimal digits.
-/

namespace DotCompletion.Quoted

/-- `n` in lower-case hexadecimal, filled with zeros to `width` digits. -/
def hex (width n : Nat) : List Char :=
  let digits := Nat.toDigits 16 n
  List.replicate (width - digits.length) '0' ++ digits

/-- The letters of the controls that have a short escape. -/
def shortEscapes : List (Nat × Char) :=
  [(7, 'a'), (8, 'b'), (9, 't'), (10, 'n'), (11, 'v'), (12, 'f'), (13, 'r')]

/-- A character as it stands between the quotes. -/
def escapeChar (c : Char) : List Char :=
  if c = '\\' ∨ c = '\x22' then ['\\', c]
  else if Printable.isPrintable c then [c]
  else
    match shortEscapes.lookup c.toNat with
    | some letter => ['\\', letter]
    | none =>
      if c.toNat < 0x80 then '\\' :: 'x' :: hex 2 c.toNat
      else if c.toNat < 0x10000 then '\\' :: 'u' :: hex 4 c.toNat
      else '\\' :: 'U' :: hex 8 c.toNat

/-- A piece as it stands between the quotes. -/
def escapePiece : Piece → List Char
  | .char c => escapeChar c
  | .stray b => '\\' :: 'x' :: hex 2 b.toNat

/-- The quoted form of a byte string. -/
def quote (bytes : Bytes) : String :=
  String.ofList ('\x22' :: (Utf8.pieces bytes).flatMap escapePiece ++ ['\x22'])

/-- The quoted form of a text. -/
def quoteText (text : String) : String :=
  quote (Bytes.ofString text)

/-- A character between single quotes. -/
def quoteChar (c : Char) : String :=
  let shown := if c = '\x27' then ['\\', c] else if c = '\x22' then [c] else escapeChar c
  String.ofList ('\x27' :: shown ++ ['\x27'])

end DotCompletion.Quoted
