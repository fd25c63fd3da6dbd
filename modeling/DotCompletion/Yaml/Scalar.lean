import DotCompletion.Yaml.Cursor

/-!
# YAML scalars

This module reads plain scalars, quoted ones and blocks. Lines of a scalar are
folded: a single line break becomes a space, further ones are kept.
-/

namespace DotCompletion.Yaml

open Read

/-- Spaces and line breaks between two parts of a scalar. -/
structure Gap where
  /-- The spaces in front of the first line break. -/
  spaces : String
  /-- There is a line break, perhaps one that is left out. -/
  broken : Bool
  /-- The first line break, if it counts. -/
  first : Option Char
  /-- The further line breaks. -/
  more : String

namespace Gap

/-- No gap. -/
def empty : Gap := ⟨"", false, none, ""⟩

/-- A gap behind a line break that is left out. -/
def behindBreak : Gap := ⟨"", true, none, ""⟩

/-- The gap with one more line break. -/
def addBreak (g : Gap) (c : Char) : Gap :=
  if g.broken then { g with more := g.more.push c }
  else { g with spaces := "", broken := true, first := some c }

/-- What a gap contributes to the text. -/
def text (g : Gap) : String :=
  if g.broken then
    match g.first with
    | none => g.more
    | some c =>
      if c = '\n' then (if g.more.isEmpty then " " else g.more)
      else String.singleton c ++ g.more
  else g.spaces

/-- Read on in a gap. Behind a line break no tab may stand in front of column
`least`. The count bounds the number of characters. -/
def readFrom (least : Nat) : Nat → Gap → Read Gap
  | 0, g => pure g
  | n + 1, g => do
    need 1
    let c ← look 0
    if isBlank c then
      if g.broken && (← get).column < least && c == '\t' then failure
      skip
      readFrom least n (if g.broken then g else { g with spaces := g.spaces.push c })
    else if isBreak c then
      need 2
      match ← takeBreak with
      | some b => readFrom least n (g.addBreak b)
      | none => pure g
    else pure g

/-- Read on in a gap. -/
def read (least : Nat) (g : Gap) : Read Gap := do
  g.readFrom least (← get).bound

end Gap

/-! ## Plain scalars -/

/-- A sign that ends a plain scalar. -/
def endsPlain (inFlow : Bool) (c next : Char) : Bool :=
  (c == ':' && isGap next) || (inFlow && [',', '?', '[', ']', '\x7b', '\x7d'].contains c)

/-- Read a plain scalar up to a gap or to a sign that ends it. The count bounds
the number of characters. -/
def plainWord (inFlow : Bool) : Nat → (word : String) → Read String
  | 0, word => pure word
  | n + 1, word => do
    let c ← look 0
    if isGap c || endsPlain inFlow c (← look 1) then pure word
    else
      skip
      need 2
      plainWord inFlow n (word.push c)

/-- Read a plain scalar behind `text` and a gap. It ends in front of a comment, a
document mark or a line that is not indented far enough. Gives the text, and
whether a line break came last. The count bounds the number of words. -/
def plainFrom (inFlow : Bool) (least : Nat) :
    Nat → (text : String) → (before : Gap) → Read (String × Bool)
  | 0, _, _ => failure
  | n + 1, text, before => do
    need 4
    if (← get).atDocumentMark || (← look 0) == '#' then return (text, before.broken)
    let word ← plainWord inFlow (← get).bound ""
    if word.isEmpty then return (text, before.broken)
    let text := text ++ before.text ++ word
    let c ← look 0
    if !(isBlank c || isBreak c) then return (text, false)
    let between ← Gap.empty.read least
    if !inFlow && (← get).column < least then return (text, between.broken)
    plainFrom inFlow least n text between

/-- Read a plain scalar. -/
def plain (inFlow : Bool) (least : Nat) : Read (String × Bool) := do
  plainFrom inFlow least (← get).bound "" .empty

/-! ## Quoted scalars -/

/-- The escapes of one letter. -/
def shortEscapes : List (Char × Nat) :=
  [('0', 0), ('a', 7), ('b', 8), ('t', 9), ('\t', 9), ('n', 10), ('v', 11), ('f', 12), ('r', 13),
   ('e', 27), (' ', 32), ('\x22', 34), ('\x27', 39), ('\\', 92), ('N', 0x85), ('_', 0xA0),
   ('L', 0x2028), ('P', 0x2029)]

/-- The escapes that are followed by hexadecimal digits, with their number. -/
def longEscapes : List (Char × Nat) := [('x', 2), ('u', 4), ('U', 8)]

/-- Read a number of hexadecimal digits behind those that mean `value`. -/
def hexDigits : Nat → (value : Nat) → Read Nat
  | 0, value => pure value
  | n + 1, value => do
    match hexValue? (← look 0) with
    | none => failure
    | some digit =>
      skip
      hexDigits n (value * 16 + digit)

/-- Read an escape. -/
def escape : Read Char := do
  let letter ← look 1
  match shortEscapes.lookup letter, longEscapes.lookup letter with
  | some code, _ =>
    skip
    skip
    return Char.ofNat code
  | none, some length =>
    skip
    skip
    need length
    let value ← hexDigits length 0
    if value.isValidChar then return Char.ofNat value else failure
  | none, none => failure

/-- Read a quoted scalar behind `text` up to a gap or its quote. In single quotes
a quote is written twice; in double quotes there are escapes. Gives the text, and
whether it ends with an escaped line break. The count bounds the number of
characters. -/
def quotedWord (quote : Char) : Nat → (text : String) → Read (String × Bool)
  | 0, _ => failure
  | n + 1, text => do
    let single := quote == '\x27'
    let c ← look 0
    let after ← look 1
    if isGap c then return (text, false)
    else if single && c == quote && after == quote then
      skip
      skip
      need 2
      quotedWord quote n (text.push quote)
    else if c == quote then return (text, false)
    else if !single && c == '\\' && isBreak after then
      need 3
      skip
      skipBreak
      return (text, true)
    else if !single && c == '\\' then
      let e ← escape
      need 2
      quotedWord quote n (text.push e)
    else
      skip
      need 2
      quotedWord quote n (text.push c)

/-- Read a quoted scalar behind `text` up to its end. No document mark may stand
in it. The count bounds the number of words. -/
def quotedFrom (quote : Char) : Nat → (text : String) → Read String
  | 0, _ => failure
  | n + 1, text => do
    need 4
    if (← get).atDocumentMark || (← look 0) == endChar then failure
    let (text, escaped) ← quotedWord quote (← get).bound text
    need 1
    if (← look 0) == quote then
      skip
      return text
    let between ← (if escaped then Gap.behindBreak else .empty).read 0
    quotedFrom quote n (text ++ between.text)

/-- Read a quoted scalar. -/
def quoted (quote : Char) : Read String := do
  skip
  quotedFrom quote (← get).bound ""

/-! ## Blocks -/

/-- What becomes of the line breaks at the end of a block. -/
inductive Chomp where
  | strip
  | clip
  | keep
deriving DecidableEq

/-- Read what becomes of the end of a block, if that is said. -/
def chomp? : Read (Option Chomp) := do
  need 1
  let c ← look 0
  if c == '+' then
    skip
    return some .keep
  else if c == '-' then
    skip
    return some .strip
  else return none

/-- Read by how much a block is indented, if that is said. It cannot be zero. -/
def increment? : Read (Option Nat) := do
  need 1
  let c ← look 0
  if c == '0' then failure
  else if c.isDigit then
    skip
    return some (c.toNat - 48)
  else return none

/-- Read the signs behind the one that opens a block, in either order. -/
def blockHeader : Read (Chomp × Option Nat) := do
  match ← chomp? with
  | some chomp => return (chomp, ← increment?)
  | none =>
    match ← increment? with
    | some d => return ((← chomp?).getD .clip, some d)
    | none => return (.clip, none)

/-- Read empty lines behind those in `breaks`, and the indentation of the line
after them, up to column `indent` if that is known. Gives the breaks and the
deepest column met. No tab may stand in the indentation. The count bounds the
number of characters. -/
def blockGapFrom (indent : Option Nat) :
    Nat → (breaks : String) → (deepest : Nat) → Read (String × Nat)
  | 0, breaks, deepest => pure (breaks, deepest)
  | n + 1, breaks, deepest => do
    need 1
    let c ← look 0
    let column := (← get).column
    let inside := (indent.map fun n => decide (column < n)).getD true
    if inside && c == ' ' then
      skip
      blockGapFrom indent n breaks deepest
    else if inside && c == '\t' then failure
    else if isBreak c then
      need 2
      skipBreak
      blockGapFrom indent n (breaks.push (keptBreak c)) (max deepest column)
    else return (breaks, max deepest column)

/-- Read empty lines and the indentation of the line after them. -/
def blockGap (indent : Option Nat) : Read (String × Nat) := do
  blockGapFrom indent (← get).bound "" 0

/-- The text of a block and the line breaks at its end. -/
structure Block where
  text : String
  lastBreak : String
  breaks : String

/-- Read the lines of a block behind those in `b`. In a folded block the break
between two lines becomes a space, unless one of them begins with a space. The
count bounds the number of lines. -/
def blockLines (folded : Bool) (indent : Nat) : Nat → (blankLine : Bool) → Block → Read Block
  | 0, _, b => pure b
  | n + 1, blankLine, b => do
    let c ← look 0
    if (← get).column != indent || c == endChar then return b
    let join :=
      if folded && !blankLine && !isBlank c && b.lastBreak == "\n" then
        (if b.breaks.isEmpty then " " else "")
      else b.lastBreak
    let line ← takeWhile fun c => !endsLine c
    need 2
    let lastBreak := ((← takeBreak).map String.singleton).getD ""
    let (breaks, _) ← blockGap (some indent)
    blockLines folded indent n (isBlank c) ⟨b.text ++ join ++ b.breaks ++ line, lastBreak, breaks⟩

/-- Read a block from the sign that opens it on. `outer` is the indentation of
what the block stands in, from -1 on. -/
def block (folded : Bool) (outer : Int) : Read String := do
  skip
  let (chomp, increment) ← blockHeader
  skipLine
  let fixed := increment.map fun d => if 0 ≤ outer then outer.toNat + d else d
  let (breaks, deepest) ← blockGap fixed
  let indent := fixed.getD (max deepest (max (outer + 1).toNat 1))
  need 1
  let b ← blockLines folded indent (← get).bound false ⟨"", "", breaks⟩
  return b.text ++ (if chomp = .strip then "" else b.lastBreak)
    ++ (if chomp = .keep then b.breaks else "")

end DotCompletion.Yaml
