import DotCompletion.Yaml.Encoding

/-!
# A place in a YAML text

Reading goes on from a place in a text. Looking ahead asks for a number of
characters, and so perhaps for a further portion of the text, which fails if that
portion cannot be read. Behind the last character of a text stand as many
`endChar` as are asked for.
-/

namespace DotCompletion.Yaml

/-- The character behind the last one. -/
def endChar : Char := '\x00'

/-- The byte order mark as a character. -/
def orderMark : Char := '\uFEFF'

/-- A space or a tab. -/
def isBlank (c : Char) : Bool := c == ' ' || c == '\t'

/-- A line break. -/
def isBreak (c : Char) : Bool :=
  [0x0A, 0x0D, 0x85, 0x2028, 0x2029].contains c.toNat

/-- A line break or the end. -/
def endsLine (c : Char) : Bool := isBreak c || c == endChar

/-- A space, a line break or the end. -/
def isGap (c : Char) : Bool := isBlank c || endsLine c

/-- A letter, a digit or one of the two signs that names may contain. -/
def isNameChar (c : Char) : Bool := c.isAlphanum || c == '_' || c == '-'

/-- A line break as it goes into the text of a scalar. -/
def keptBreak (c : Char) : Char :=
  if c.toNat = 0x2028 ∨ c.toNat = 0x2029 then c else '\n'

/-- The value of a hexadecimal digit. -/
def hexValue? (c : Char) : Option Nat :=
  if c.isDigit then some (c.toNat - 48)
  else if 'a' ≤ c ∧ c ≤ 'f' then some (c.toNat - 87)
  else if 'A' ≤ c ∧ c ≤ 'F' then some (c.toNat - 55)
  else none

/-- A place in a text. -/
structure Cursor where
  /-- The characters that follow, each with the number of its portion. -/
  ahead : List (Char × Nat)
  /-- The text ends behind them. Otherwise it goes on unreadably. -/
  complete : Bool
  /-- The number of characters that can be read in all. -/
  size : Nat
  /-- How many portions were asked for. -/
  portions : Nat
  /-- The character that came next when a portion was asked for last. -/
  lead : Char
  /-- The number of lines in front, of columns in the line, and of characters. -/
  line : Nat
  column : Nat
  index : Nat
  /-- There are only blanks between the last line break and here. -/
  fresh : Bool

namespace Cursor

/-- The beginning of a text. -/
def start (text : Readable) : Cursor :=
  ⟨text.chars, text.complete, text.chars.length, 0, endChar, 0, 0, 0, false⟩

/-- The character at a distance. -/
def charAt (s : Cursor) (n : Nat) : Char := ((s.ahead[n]?).map Prod.fst).getD endChar

/-- More than the number of characters that follow. -/
def bound (s : Cursor) : Nat := s.size - s.index + 2

/-- Ask for a number of characters. -/
def demand (s : Cursor) (n : Nat) : Option Cursor :=
  match s.ahead[n - 1]? with
  | some (_, portion) =>
    some (if portion ≤ s.portions then s
      else { s with portions := portion, lead := s.charAt 0 })
  | none => if s.complete then some { s with lead := s.charAt 0 } else none

/-- Behind the next character. -/
def next (s : Cursor) : Cursor :=
  { s with
    ahead := s.ahead.drop 1
    column := s.column + 1
    index := s.index + 1
    fresh := s.fresh && isBlank (s.charAt 0) }

/-- Behind the line break that comes next, which may have two characters. -/
def nextLine (s : Cursor) : Cursor :=
  let size := if s.charAt 0 == '\r' && s.charAt 1 == '\n' then 2 else 1
  if isBreak (s.charAt 0) then
    { s with
      ahead := s.ahead.drop size
      line := s.line + 1
      column := 0
      index := s.index + size
      fresh := true }
  else s

/-- The document goes on to another or ends here: three dashes or dots at the
beginning of a line. -/
def atDocumentMark (s : Cursor) : Bool :=
  let sign := s.charAt 0
  s.column == 0 && (sign == '-' || sign == '.') && s.charAt 1 == sign && s.charAt 2 == sign
    && isGap (s.charAt 3)

end Cursor

/-- Reading from a place on; it may fail. -/
abbrev Read := StateT Cursor Option

namespace Read

/-- Ask for a number of characters. -/
def need (n : Nat) : Read Unit := fun s => (s.demand n).map fun s => ((), s)

/-- The character at a distance, which must have been asked for. -/
def look (n : Nat) : Read Char := return (← get).charAt n

/-- Go behind the next character. -/
def skip : Read Unit := modify Cursor.next

/-- Go behind the line break that comes next. -/
def skipBreak : Read Unit := modify Cursor.nextLine

/-- Go behind the line break that comes next, and give it as it goes into a
text. -/
def takeBreak : Read (Option Char) := do
  let c ← look 0
  skipBreak
  return if isBreak c then some (keptBreak c) else none

/-- Read characters while `p` holds of them, behind those in `before`. The count
bounds their number. -/
def takeWhileFrom (p : Char → Bool) : Nat → (before : String) → Read String
  | 0, before => pure before
  | n + 1, before => do
    need 1
    let c ← look 0
    if p c then
      skip
      takeWhileFrom p n (before.push c)
    else pure before

/-- Read characters while `p` holds of them; it must not hold of `endChar`. -/
def takeWhile (p : Char → Bool) : Read String := do
  takeWhileFrom p (← get).bound ""

/-- Go behind blanks. -/
def skipBlanks : Read Unit := do
  let _ ← takeWhile isBlank

/-- Go to the end of the line. -/
def skipToEnd : Read Unit := do
  let _ ← takeWhile fun c => !endsLine c

/-- Go behind blanks and a comment to the end of the line, and behind it. There
must be nothing else. -/
def skipLine : Read Unit := do
  skipBlanks
  if (← look 0) == '#' then skipToEnd
  unless endsLine (← look 0) do failure
  need 2
  skipBreak

end Read

end DotCompletion.Yaml
