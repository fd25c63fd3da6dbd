import DotCompletion.Yaml.Property
import DotCompletion.Yaml.Scalar

/-!
# YAML tokens

Indentation opens and closes collections, so the tokens of a text include some
that no character stands for. A mapping is recognized only at the colon behind
its first key; what may turn out to be a key is remembered, and the tokens that
open the mapping are put in front of it afterwards. Tokens are therefore handed
out from a queue, a few at a time, and only as many as are asked for are read.
-/

namespace DotCompletion.Yaml

/-- A token of a text. -/
inductive Token where
  | directive (d : Directive)
  | documentStart
  | documentEnd
  | streamEnd
  | blockSequence
  | blockMapping
  | blockEnd
  | blockEntry
  | flowSequence
  | flowSequenceEnd
  | flowMapping
  | flowMappingEnd
  | flowEntry
  | key
  | value
  | alias (name : String)
  | anchor (name : String)
  | tag (t : Tag)
  | scalar (text : String) (isPlain : Bool)
deriving DecidableEq

/-- A place where a key may have started. -/
structure KeyPlace where
  /-- It is still open whether a key started here. -/
  possible : Bool
  /-- What stands here must be a key. -/
  required : Bool
  /-- The number of tokens in front of it. -/
  number : Nat
  line : Nat
  column : Nat
  index : Nat

/-- The number of characters that a key and what is in front of its colon may
have. -/
def keyLimit : Nat := 1024

/-- How deep brackets and blocks may be nested. -/
def depthLimit : Nat := 10000

/-- The state of reading tokens. -/
structure Scanner where
  cursor : Cursor
  /-- The tokens that were read and not handed out. -/
  queue : List Token
  /-- How many tokens were handed out. -/
  taken : Nat
  /-- The indentation of the innermost block, -1 outside of all. -/
  indent : Int
  /-- The indentations around it. -/
  indents : List Int
  /-- A key may start here. -/
  keyAllowed : Bool
  /-- The place of the last possible key, in the innermost brackets. -/
  place : KeyPlace
  /-- The places in the brackets around them, the innermost first. -/
  outer : List KeyPlace
  /-- The tokens that may begin a key, by number, and how many brackets are
  around them. -/
  pending : List (Nat × Nat)

/-- Reading tokens; it may fail. -/
abbrev Scan := StateT Scanner Option

/-- Reading characters is a part of reading tokens. -/
instance : MonadLift Read Scan :=
  ⟨fun r s => (r s.cursor).map fun (a, cursor) => (a, { s with cursor })⟩

namespace Scanner

/-- The beginning of a text. -/
def start (text : Readable) : Scanner :=
  ⟨.start text, [], 0, -1, [], true, ⟨false, false, 0, 0, 0, 0⟩, [], []⟩

/-- How many brackets are open. -/
def flow (s : Scanner) : Nat := s.outer.length

/-- Inside brackets. -/
def inFlow (s : Scanner) : Bool := 0 < s.flow

/-- The number of the token to be read next. -/
def nextNumber (s : Scanner) : Nat := s.taken + s.queue.length

/-- A possible key that starts here. -/
def placeHere (s : Scanner) (possible required : Bool) : KeyPlace :=
  ⟨possible, required, s.nextNumber, s.cursor.line, s.cursor.column, s.cursor.index⟩

/-- Add a token at the end of the queue. -/
def push (s : Scanner) (t : Token) : Scanner := { s with queue := s.queue ++ [t] }

/-- Put a token in front of the one with a number; at the end if that was handed
out already. -/
def insert (s : Scanner) (number : Nat) (t : Token) : Scanner :=
  if s.taken ≤ number then
    let (front, back) := s.queue.splitAt (number - s.taken)
    { s with queue := front ++ t :: back }
  else s.push t

/-- Forget that a token may begin a key. -/
def settle (s : Scanner) (number : Nat) : Scanner :=
  { s with pending := s.pending.filter fun entry => entry.1 != number }

/-- Where the possible key in a number of brackets starts. -/
def placeAt? (s : Scanner) (level : Nat) : Option KeyPlace :=
  (s.place :: s.outer)[s.flow - level]?

/-- The same, with another place for the possible key in a number of brackets. -/
def setPlace (s : Scanner) (level : Nat) (k : KeyPlace) : Scanner :=
  match (s.place :: s.outer).set (s.flow - level) k with
  | place :: outer => { s with place, outer }
  | [] => s

end Scanner

namespace Scan

/-- Add a token at the end of the queue. -/
def push (t : Token) : Scan Unit := modify (·.push t)

/-- Say whether a key may start. -/
def allowKey (allowed : Bool) : Scan Unit := modify fun s => { s with keyAllowed := allowed }

/-- Whether the possible key in a number of brackets can still be one: it must
stand on the same line and not too far in front. One that must be a key and
cannot be one is an error. -/
def isLive (level : Nat) : Scan Bool := do
  let s ← get
  match s.placeAt? level with
  | none => failure
  | some k =>
    if !k.possible then return false
    else if k.line < s.cursor.line || k.index + keyLimit < s.cursor.index then
      if k.required then failure
      set (s.setPlace level { k with possible := false })
      return false
    else return true

/-- Forget the possible key, unless it had to be one. -/
def dropKey : Scan Unit := do
  let s ← get
  if s.place.possible then
    if s.place.required then failure
    set ({ s with place := { s.place with possible := false } }.settle s.place.number)

/-- Remember that a key may start here. It must be one if it stands where the
block is indented to. -/
def saveKey : Scan Unit := do
  if (← get).keyAllowed then
    dropKey
    modify fun s =>
      let s := s.settle s.nextNumber
      { s with
        place := s.placeHere true (!s.inFlow && s.indent == s.cursor.column)
        pending := (s.nextNumber, s.flow) :: s.pending }

/-- Open a block that is indented to a column, unless the innermost one is. The
token goes in front of the one with a number. -/
def openBlock (column number : Nat) (t : Token) : Scan Unit := do
  let s ← get
  if !s.inFlow && s.indent < column then
    if depthLimit ≤ s.indents.length then failure
    set ({ s with indent := column, indents := s.indent :: s.indents }.insert number t)

/-- Close the blocks that are indented further than a column, given with the
indentations that are left. -/
def closeBlocksFrom (column : Int) (s : Scanner) : List Int → Scanner
  | [] => s
  | outer :: indents =>
    if column < s.indent then
      closeBlocksFrom column ({ s with indent := outer, indents }.push .blockEnd) indents
    else s

/-- Close the blocks that are indented further than a column. -/
def closeBlocks (column : Int) : Scan Unit :=
  modify fun s => if s.inFlow then s else closeBlocksFrom column s s.indents

/-! ## Comments -/

/-- How far ahead a comment is looked for. -/
def commentReach : Nat := 512

/-- The distance of a comment, if there are only characters of the kind `p` in
front of it. The count bounds the distance. -/
def commentFrom (p : Char → Bool) : Nat → (distance : Nat) → Read (Option Nat)
  | 0, _ => pure none
  | n + 1, distance => do
    Read.need (distance + 1)
    let c ← Read.look distance
    if p c then commentFrom p n (distance + 1)
    else return if c == '#' then some distance else none

/-- Go behind a number of characters. -/
def skipMany : Nat → Read Unit
  | 0 => pure ()
  | n + 1 => do
    let c ← Read.look 0
    if c == '\r' && (← Read.look 1) == '\n' then
      Read.skipBreak
      skipMany (n - 1)
    else
      if isBreak c then Read.skipBreak else Read.skip
      skipMany n
termination_by n => n

/-- Go behind a comment on the same line. -/
def skipLineComment : Read Unit := do
  if !(← get).fresh then
    match ← commentFrom isBlank commentReach 0 with
    | none => pure ()
    | some distance =>
      skipMany distance
      Read.skipToEnd

/-- A break that is written as one byte. -/
def isShortBreak (c : Char) : Bool := c == '\n' || c == '\r'

/-- Go to the end of a comment, and of the comments on the lines that follow. The
count bounds the number of lines. -/
def skipComments : Nat → Read Unit
  | 0 => pure ()
  | n + 1 => do
    Read.skipToEnd
    if isShortBreak (← Read.look 0) then
      match ← commentFrom (fun c => isBlank c || isShortBreak c) (commentReach - 1) 1 with
      | none => pure ()
      | some distance =>
        skipMany distance
        skipComments n
    else Read.need 2

/-- Go to the next token. The count bounds the number of lines. -/
def skipToToken : Nat → Scan Unit
  | 0 => pure ()
  | n + 1 => do
    Read.need 1
    let s ← get
    if s.cursor.column == 0 && s.cursor.lead == orderMark then Read.skip
    let _ ← Read.takeWhile fun c =>
      c == ' ' || ((s.inFlow || !s.keyAllowed) && c == '\t')
    if (← Read.look 0) == '#' then skipComments s.cursor.bound
    if isBreak (← Read.look 0) then
      Read.need 2
      Read.skipBreak
      if !s.inFlow then allowKey true
      skipToToken n

/-! ## Tokens -/

/-- The end of the text, which ends the line. -/
def streamEnd : Scan Unit := do
  modify fun s =>
    if s.cursor.column == 0 then s
    else { s with cursor := { s.cursor with line := s.cursor.line + 1, column := 0 } }
  closeBlocks (-1)
  dropKey
  allowKey false
  push .streamEnd

/-- A directive. -/
def directive : Scan Unit := do
  closeBlocks (-1)
  dropKey
  allowKey false
  push (.directive (← Yaml.directive))

/-- Three dashes or dots. -/
def documentMark (t : Token) : Scan Unit := do
  closeBlocks (-1)
  dropKey
  allowKey false
  skipMany 3
  push t

/-- An opening bracket. -/
def flowStart (t : Token) : Scan Unit := do
  saveKey
  if depthLimit ≤ (← get).flow then failure
  modify fun s => { s with place := s.placeHere false false, outer := s.place :: s.outer }
  allowKey true
  Read.skip
  push t

/-- A closing bracket. -/
def flowEnd (t : Token) : Scan Unit := do
  dropKey
  modify fun s =>
    match s.outer with
    | [] => s
    | place :: outer => { s.settle s.place.number with place, outer }
  allowKey false
  Read.skip
  push t

/-- A comma. -/
def flowEntry : Scan Unit := do
  dropKey
  allowKey true
  Read.skip
  push .flowEntry

/-- In a block, something that may only stand where a key may, and that opens a
block here. -/
def openHere (t : Token) : Scan Unit := do
  let s ← get
  if !s.inFlow then
    if !s.keyAllowed then failure
    openBlock s.cursor.column s.nextNumber t

/-- A dash in front of an item. -/
def blockEntry : Scan Unit := do
  openHere .blockSequence
  dropKey
  allowKey true
  Read.skip
  push .blockEntry

/-- A question mark in front of a key. -/
def explicitKey : Scan Unit := do
  openHere .blockMapping
  dropKey
  allowKey (!(← get).inFlow)
  Read.skip
  push .key

/-- A colon in front of a value. -/
def value : Scan Unit := do
  if ← isLive (← get).flow then
    let k := (← get).place
    modify (·.insert k.number .key)
    openBlock k.column k.number .blockMapping
    modify fun s => { s with place := { k with possible := false } }.settle k.number
    allowKey false
  else
    openHere .blockMapping
    allowKey (!(← get).inFlow)
  Read.skip
  push .value

/-- A name or a tag, which may begin a key. -/
def property (r : Read Token) : Scan Unit := do
  saveKey
  allowKey false
  push (← r)

/-- A block of lines. -/
def blockScalar (folded : Bool) : Scan Unit := do
  dropKey
  allowKey true
  let text ← block folded (← get).indent
  push (.scalar text false)

/-- A scalar in quotes. -/
def quotedScalar (quote : Char) : Scan Unit := do
  saveKey
  allowKey false
  let text ← quoted quote
  push (.scalar text false)

/-- A scalar without quotes. -/
def plainScalar : Scan Unit := do
  saveKey
  allowKey false
  let s ← get
  let (text, broken) ← plain s.inFlow (s.indent + 1).toNat
  if broken then allowKey true
  push (.scalar text true)

/-- The signs that cannot start a plain scalar. -/
def indicators : List Char :=
  ['-', '?', ':', ',', '[', ']', '\x7b', '\x7d', '#', '&', '*', '!', '|', '>', '\x27', '\x22', '%',
   '@', '\x60']

/-- A plain scalar can start with `c` in front of `next`. -/
def startsPlain (inFlow : Bool) (c next : Char) : Bool :=
  !(isGap c || indicators.contains c)
    || (c == '-' && !isBlank next)
    || (!inFlow && (c == '?' || c == ':') && !isGap next)

/-- Read a token that belongs to the content of a document. -/
def content : Scan Unit := do
  let inFlow := (← get).inFlow
  let c ← Read.look 0
  let after ← Read.look 1
  if c == '[' then flowStart .flowSequence
  else if c == '\x7b' then flowStart .flowMapping
  else if c == ']' then flowEnd .flowSequenceEnd
  else if c == '\x7d' then flowEnd .flowMappingEnd
  else if c == ',' then flowEntry
  else if c == '-' && isGap after then blockEntry
  else if c == '?' && (inFlow || isGap after) then explicitKey
  else if c == ':' && (inFlow || isGap after) then value
  else if c == '*' then property (.alias <$> anchorName)
  else if c == '&' then property (.anchor <$> anchorName)
  else if c == '!' then property (.tag <$> Yaml.tag)
  else if c == '|' && !inFlow then blockScalar false
  else if c == '>' && !inFlow then blockScalar true
  else if c == '\x27' || c == '\x22' then quotedScalar c
  else if startsPlain inFlow c after then plainScalar
  else failure
  if !(c == '-' && isGap after) then skipLineComment

/-- Read one more token. -/
def fetch : Scan Unit := do
  skipToToken (← get).cursor.bound
  closeBlocks (← get).cursor.column
  Read.need 4
  let s ← get
  let c ← Read.look 0
  if c == endChar then streamEnd
  else if s.cursor.column == 0 && c == '%' then directive
  else if s.cursor.atDocumentMark then
    documentMark (if c == '-' then .documentStart else .documentEnd)
  else content

/-- How many tokens must have been read behind the one to be handed out. -/
def lookahead : Nat := 2

/-- The next token may still turn out to be the beginning of a key. -/
def awaitsColon : Scan Bool := do
  let s ← get
  match s.pending.lookup s.taken with
  | none => return false
  | some level => isLive level

/-- Read until the next token can be handed out. The count bounds the number of
tokens. -/
def fill : Nat → Scan Unit
  | 0 => failure
  | n + 1 => do
    if (← get).queue.length ≤ lookahead || (← awaitsColon) then
      fetch
      fill n

/-- The next token. -/
def peek : Scan Token := do
  fill ((← get).cursor.bound + lookahead + 1)
  match (← get).queue with
  | t :: _ => return t
  | [] => failure

/-- Hand out the next token. -/
def drop : Scan Unit := modify fun s => { s with queue := s.queue.drop 1, taken := s.taken + 1 }

end Scan

end DotCompletion.Yaml
