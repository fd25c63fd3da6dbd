import DotCompletion.Text.Utf8
import DotCompletion.Token.Kind

/-!
# Reading one token

Each scanner takes the input behind the part it already knows and returns what
is left behind the token. What is left is always an end of what was given, so a
token is the bytes in between. Malformed text never fails: an open comment or
text block runs to the end of the input, an open string to the end of its line,
and a byte that starts nothing becomes a token of kind `error`.
-/

namespace DotCompletion.Scan

open Bytes (startsWith)

/-- Blanks between tokens. -/
def isSpace (b : UInt8) : Bool :=
  [' ', '\t', '\r', '\n', '\x0c'].any (·.toUInt8 == b)

/-- A decimal digit. -/
def isDigit (b : UInt8) : Bool :=
  '0'.toUInt8 ≤ b && b ≤ '9'.toUInt8

/-- A decimal digit, or an underscore between digits. -/
def isDigitOrBar (b : UInt8) : Bool :=
  isDigit b || b == '_'.toUInt8

/-- A binary digit or an underscore. -/
def isBinaryOrBar (b : UInt8) : Bool :=
  b == '0'.toUInt8 || b == '1'.toUInt8 || b == '_'.toUInt8

/-- A hexadecimal digit or an underscore. -/
def isHexOrBar (b : UInt8) : Bool :=
  isDigitOrBar b || ('a'.toUInt8 ≤ b && b ≤ 'f'.toUInt8)
    || ('A'.toUInt8 ≤ b && b ≤ 'F'.toUInt8)

/-- A byte that can begin a word. Every byte of a non-ASCII character can. -/
def isLetter (b : UInt8) : Bool :=
  0x80 ≤ b || ('a'.toUInt8 ≤ b && b ≤ 'z'.toUInt8)
    || ('A'.toUInt8 ≤ b && b ≤ 'Z'.toUInt8) || b == '_'.toUInt8 || b == '$'.toUInt8

/-- A byte that can continue a word. -/
def isWordByte (b : UInt8) : Bool :=
  isLetter b || isDigit b

/-- The input begins with one of the given ASCII characters. -/
def startsWithAny (cs : List Char) (input : Bytes) : Bool :=
  cs.any (startsWith · input)

/-- Behind the input's first byte if it is one of the given characters. -/
def skipAny (cs : List Char) (input : Bytes) : Bytes :=
  if startsWithAny cs input then input.drop 1 else input

/-- Behind a line comment, in front of the newline that ends it. -/
def lineComment (input : Bytes) : Bytes :=
  input.dropWhile (· != '\n'.toUInt8)

/-- Behind the sign that closes a block comment. -/
def blockComment : Bytes → Bytes
  | [] => []
  | b :: rest =>
    if b = '*'.toUInt8 ∧ startsWith '/' rest then rest.drop 1 else blockComment rest

/-- Behind a character or string literal that was opened by `quote`. A
backslash takes the byte after it along, whatever it is. -/
def quoted (quote : UInt8) : Bytes → Bytes
  | [] => []
  | [b] => if b = '\n'.toUInt8 then [b] else []
  | b :: c :: rest =>
    if b = quote then c :: rest
    else if b = '\n'.toUInt8 then b :: c :: rest
    else if b = '\\'.toUInt8 then quoted quote rest
    else quoted quote (c :: rest)

/-- Three double quotes in a row, which open and close a text block. -/
def textBlockMark : Bytes := Bytes.ofString "\x22\x22\x22"

/-- Behind a text block. -/
def textBlock : Bytes → Bytes
  | [] => []
  | [_] => []
  | b :: c :: rest =>
    if textBlockMark.isPrefixOf (b :: c :: rest) then rest.drop 1
    else if b = '\\'.toUInt8 then textBlock rest
    else textBlock (c :: rest)

/-- Behind an exponent introduced by one of `marks`, and whether there is
one. -/
def exponent (marks : List Char) (input : Bytes) : Bool × Bytes :=
  if startsWithAny marks input then
    (true, (skipAny ['+', '-'] (input.drop 1)).dropWhile isDigitOrBar)
  else (false, input)

/-- Behind a point and the digits after it, if there is a point. -/
def fraction (isDigit : UInt8 → Bool) (point : Bool) (whole : Bytes) : Bytes :=
  if point then (whole.drop 1).dropWhile isDigit else whole

/-- A number in binary, behind `0b`. -/
def binaryNumber (input : Bytes) : TokenKind × Bytes :=
  (.intLiteral, skipAny ['l', 'L'] (input.dropWhile isBinaryOrBar))

/-- The end of a hexadecimal number: the letters `f` and `d` are digits unless a
point or an exponent came first. -/
def hexEnd (isFloat : Bool) (rest : Bytes) : TokenKind × Bytes :=
  if isFloat then (.floatLiteral, skipAny ['f', 'F', 'd', 'D'] rest)
  else (.intLiteral, skipAny ['l', 'L'] rest)

/-- A number in hexadecimal, behind `0x`. -/
def hexNumber (input : Bytes) : TokenKind × Bytes :=
  let whole := input.dropWhile isHexOrBar
  let point := startsWith '.' whole
  let power := exponent ['p', 'P'] (fraction isHexOrBar point whole)
  hexEnd (point || power.1) power.2

/-- The end of a decimal number. -/
def decimalEnd (isFloat : Bool) (rest : Bytes) : TokenKind × Bytes :=
  if startsWithAny ['f', 'F', 'd', 'D'] rest then (.floatLiteral, rest.drop 1)
  else if isFloat then (.floatLiteral, rest)
  else (.intLiteral, skipAny ['l', 'L'] rest)

/-- The whole part of a decimal number is followed by a point. A dot belongs to
the number even if no digit follows it, unless another dot does: `0.foo` is the
number `0.` and the word `foo`. -/
def hasPoint (whole : Bytes) : Bool :=
  startsWith '.' whole && !startsWith '.' (whole.drop 1)

/-- A number in decimal. -/
def decimalNumber (input : Bytes) : TokenKind × Bytes :=
  let whole := input.dropWhile isDigitOrBar
  let power := exponent ['e', 'E'] (fraction isDigitOrBar (hasPoint whole) whole)
  decimalEnd (hasPoint whole || power.1) power.2

/-- A number; its first byte tells the base together with the second. -/
def number (b : UInt8) (rest : Bytes) : TokenKind × Bytes :=
  if b = '0'.toUInt8 ∧ startsWithAny ['x', 'X'] rest then hexNumber (rest.drop 1)
  else if b = '0'.toUInt8 ∧ startsWithAny ['b', 'B'] rest then binaryNumber (rest.drop 1)
  else decimalNumber (b :: rest)

/-- The part of the word `non-sealed` behind `non`. -/
def sealedTail : Bytes := Bytes.ofString "-sealed"

/-- What is left behind `-sealed`, if the input begins with it as a whole
word. -/
def sealedTail? (input : Bytes) : Option Bytes :=
  match Bytes.after? sealedTail input with
  | some rest => if (rest.head?.map isWordByte).getD false then none else some rest
  | none => none

/-- A word: a name or a keyword, where `non-sealed` counts as one. -/
def word (input : Bytes) : TokenKind × Bytes :=
  let text := input.takeWhile isWordByte
  let rest := input.dropWhile isWordByte
  if text = Bytes.ofString "non" then
    match sealedTail? rest with
    | some behind => (.kwNonSealed, behind)
    | none => (.ofWord text, rest)
  else (.ofWord text, rest)

/-- The first sign of the list that the input begins with. -/
def sign? (input : Bytes) : List (Bytes × TokenKind) → Option (TokenKind × Bytes)
  | [] => none
  | (spelling, kind) :: signs =>
    match Bytes.after? spelling input with
    | some rest => some (kind, rest)
    | none => sign? input signs

/-- A sign, or else one character that starts no token. -/
def sign (b : UInt8) (rest : Bytes) : TokenKind × Bytes :=
  match sign? (b :: rest) TokenKind.signSpellings with
  | some found => found
  | none => (.error, rest.drop (Utf8.head b rest).2)

/-- The kind of the token that starts with `b`, and what is left behind it. -/
def token (b : UInt8) (rest : Bytes) : TokenKind × Bytes :=
  if b = '/'.toUInt8 ∧ startsWith '/' rest then (.lineComment, lineComment rest)
  else if b = '/'.toUInt8 ∧ startsWith '*' rest then (.comment, blockComment (rest.drop 1))
  else if isSpace b then (.whitespace, rest.dropWhile isSpace)
  else if isLetter b then word (b :: rest)
  else if isDigit b ∨ (b = '.'.toUInt8 ∧ (rest.head?.map isDigit).getD false) then
    number b rest
  else if b = '\x27'.toUInt8 then (.charLiteral, quoted b rest)
  else if textBlockMark.isPrefixOf (b :: rest) then (.textBlock, textBlock (rest.drop 2))
  else if b = '\x22'.toUInt8 then (.stringLiteral, quoted b rest)
  else sign b rest

end DotCompletion.Scan
