/-!
# TOML strings and keys

Strings stand in double quotes, with escapes, or in single quotes, without; three
quotes open a string that may go over several lines. Control characters are not
allowed in any of them, but for tabs and, in the long ones, line breaks.
-/

namespace DotCompletion.Toml

/-- A space or a tab. -/
def isBlank (c : Char) : Bool := c == ' ' || c == '\t'

/-- Behind spaces and tabs. -/
def skipBlank (s : List Char) : List Char := s.dropWhile isBlank

/-- A control character other than a tab. -/
def isControl (c : Char) : Bool :=
  (c.toNat < 0x20 && c != '\t') || c.toNat == 0x7F

/-- Behind a line break. -/
def lineBreak? : List Char → Option (List Char)
  | '\n' :: rest => some rest
  | '\r' :: '\n' :: rest => some rest
  | _ => none

/-- Behind a comment, in front of the line break that ends it; the sign that
opens it is already read. -/
def comment? (s : List Char) : Option (List Char) :=
  let behind := s.dropWhile fun c => !isControl c
  if behind.isEmpty || (lineBreak? behind).isSome then some behind else none

/-- The value of a hexadecimal digit. -/
def hexValue? (c : Char) : Option Nat :=
  if c.isDigit then some (c.toNat - 48)
  else if 'a' ≤ c ∧ c ≤ 'f' then some (c.toNat - 87)
  else if 'A' ≤ c ∧ c ≤ 'F' then some (c.toNat - 55)
  else none

/-- The character with the code written by the first `length` characters. -/
def hexChar? (length : Nat) (s : List Char) : Option Char := do
  let digits := s.take length
  if digits.length ≠ length then none
  let value ← digits.foldlM (fun value c => (hexValue? c).map (value * 16 + ·)) 0
  if value.isValidChar then some (Char.ofNat value) else none

/-- The escapes of one letter. -/
def shortEscapes : List (Char × Nat) :=
  [('\x22', 34), ('\\', 92), ('b', 8), ('e', 27), ('f', 12), ('n', 10), ('r', 13), ('t', 9)]

/-- The escapes that are followed by hexadecimal digits, with their number. -/
def longEscapes : List (Char × Nat) := [('u', 4), ('U', 8)]

/-- The character an escape stands for, and how many characters it takes behind
the backslash. -/
def escape? : List Char → Option (Char × Nat)
  | [] => none
  | letter :: rest =>
    match shortEscapes.lookup letter, longEscapes.lookup letter with
    | some code, _ => some (Char.ofNat code, 1)
    | none, some length => (hexChar? length rest).map fun c => (c, length + 1)
    | none, none => none

/-- Behind blanks and line breaks. -/
def skipGap : List Char → List Char
  | '\n' :: rest => skipGap rest
  | '\r' :: '\n' :: rest => skipGap rest
  | c :: rest => if isBlank c then skipGap rest else c :: rest
  | [] => []

/-- Behind a backslash at the end of a line: the blanks and line breaks that it
makes disappear. -/
def lineEnd? (s : List Char) : Option (List Char) :=
  (lineBreak? (skipBlank s)).map skipGap

/-- Read a string up to its quote, on one line or over several. The count bounds
the number of steps. -/
def textFrom (quote : Char) (long : Bool) : Nat → List Char → Option (List Char × List Char)
  | 0, _ => none
  | _, [] => none
  | n + 1, c :: rest =>
    let go (text : List Char) (s : List Char) : Option (List Char × List Char) :=
      (textFrom quote long n s).map fun (more, s) => (text ++ more, s)
    if c == quote then
      if long then
        let quotes := 1 + (rest.takeWhile (· == quote)).length
        if quotes < 3 then go [c] rest
        else if quotes ≤ 5 then
          some (List.replicate (quotes - 3) quote, rest.drop (quotes - 1))
        else none
      else some ([], rest)
    else if quote == '\x22' && c == '\\' then
      match if long then lineEnd? rest else none with
      | some behind => go [] behind
      | none => (escape? rest).bind fun (e, taken) => go [e] (rest.drop taken)
    else if c == '\n' && long then go [c] rest
    else if c == '\r' && long && rest.head? == some '\n' then go [c] rest
    else if isControl c then none
    else go [c] rest

/-- Read a string behind the first of its quotes. -/
def text? (quote : Char) (s : List Char) : Option (String × List Char) :=
  let found :=
    if s.take 2 == [quote, quote] then
      let body := s.drop 2
      textFrom quote true (body.length + 1) ((lineBreak? body).getD body)
    else textFrom quote false (s.length + 1) s
  found.map fun (text, rest) => (String.ofList text, rest)

/-- Read a string that is a key, behind its quote; it cannot be a long one. -/
def keyText? (quote : Char) (s : List Char) : Option (String × List Char) :=
  (textFrom quote false (s.length + 1) s).map fun (text, rest) => (String.ofList text, rest)

/-- A character of a key without quotes. -/
def isKeyChar (c : Char) : Bool := c.isAlphanum || c == '-' || c == '_'

/-- Read one part of a key. -/
def keyPart? : List Char → Option (String × List Char)
  | [] => none
  | c :: rest =>
    if c == '\x22' || c == '\x27' then keyText? c rest
    else if isKeyChar c then
      some (String.ofList ((c :: rest).takeWhile isKeyChar), (c :: rest).dropWhile isKeyChar)
    else none

/-- Read a key of one part or of several with dots between them. The count bounds
the number of parts. -/
def key? : Nat → List Char → Option (List String × List Char)
  | 0, _ => none
  | n + 1, s => do
    let (part, behind) ← keyPart? s
    match skipBlank behind with
    | '.' :: rest =>
      let (parts, s) ← key? n (skipBlank rest)
      some (part :: parts, s)
    | s => some ([part], s)

end DotCompletion.Toml
