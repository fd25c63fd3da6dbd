import DotCompletion.Yaml.Cursor

/-!
# YAML anchors, tags and directives

A value may carry a name, by which it is used again elsewhere, and a tag, which
says what it is. Tags are abbreviated by handles, which directives in front of a
document declare.
-/

namespace DotCompletion.Yaml

open Read

/-- The signs that may follow a name directly. -/
def nameEnds : List Char := ['?', ':', ',', ']', '\x7d', '%', '@', '\x60']

/-- Read the name of an anchor or of an alias, from the sign that opens it on. -/
def anchorName : Read String := do
  skip
  let name ← takeWhile isNameChar
  let c ← look 0
  if name.isEmpty || !(isGap c || nameEnds.contains c) then failure
  return name

/-- Read the octets of a character that is written with a percent sign in front
of each; `more` of them are still to come behind the first. -/
def octets : Nat → (text : String) → Read String
  | 0, text => pure text
  | more + 1, text => do
    need 3
    if (← look 0) != '%' then failure
    match hexValue? (← look 1), hexValue? (← look 2) with
    | some high, some low =>
      if low + 16 * high < 0x80 || 0xC0 ≤ low + 16 * high then failure
      skip
      skip
      skip
      octets more (text.push (Char.ofNat (low + 16 * high)))
    | _, _ => failure

/-- Read a character that is written with percent signs. What it is does not
matter beyond its octets. -/
def escapedOctets (text : String) : Read String := do
  need 3
  match hexValue? (← look 1), hexValue? (← look 2) with
  | some high, some low =>
    match Utf8.lead? (UInt8.ofNat (low + 16 * high)) with
    | none => failure
    | some (more, _, _) =>
      skip
      skip
      skip
      octets more (text.push (Char.ofNat (low + 16 * high)))
  | _, _ => failure

/-- The signs that a tag may contain besides those of a name. -/
def tagSigns : List Char :=
  [';', '/', '?', ':', '@', '&', '=', '+', '$', ',', '.', '!', '~', '*', '\x27', '(', ')', '[', ']',
   '%']

/-- Read the characters of a tag behind `text`. The count bounds their number. -/
def tagCharsFrom : Nat → (text : String) → Read String
  | 0, text => pure text
  | n + 1, text => do
    need 1
    let c ← look 0
    if c == '%' then
      let text ← escapedOctets text
      tagCharsFrom n text
    else if isNameChar c || tagSigns.contains c then
      skip
      tagCharsFrom n (text.push c)
    else pure text

/-- Read the characters of a tag, of which there must be one. -/
def tagChars : Read String := do
  let text ← tagCharsFrom (← get).bound ""
  if text.isEmpty then failure
  return text

/-- Read an exclamation mark, a name, and perhaps a second mark. -/
def tagHandle : Read String := do
  need 1
  if (← look 0) != '!' then failure
  skip
  let name ← takeWhile isNameChar
  if (← look 0) == '!' then
    skip
    return "!" ++ name ++ "!"
  else return "!" ++ name

/-- A tag as it is written. -/
inductive Tag where
  /-- A tag in full. -/
  | full (text : String)
  | short (handle : String) (suffix : String)
deriving DecidableEq

/-- Read a tag in full, in angle brackets. -/
def fullTag : Read Tag := do
  skip
  skip
  let text ← tagChars
  if (← look 0) != '>' then failure
  skip
  return .full text

/-- Read a tag that begins with a handle. If the handle has one exclamation mark
only, what follows it belongs to the suffix. A lone mark is a tag in full. -/
def shortTag : Read Tag := do
  let handle ← tagHandle
  if handle.length > 1 && handle.endsWith "!" then return .short handle (← tagChars)
  else
    let suffix ← tagCharsFrom (← get).bound (String.ofList (handle.toList.drop 1))
    return if suffix.isEmpty then .full "!" else .short "!" suffix

/-- Read a tag. -/
def tag : Read Tag := do
  need 2
  let t ← if (← look 1) == '<' then fullTag else shortTag
  need 1
  unless isGap (← look 0) do failure
  return t

/-! ## Directives -/

/-- A directive. -/
inductive Directive where
  | version (major minor : Nat)
  /-- A handle stands for the first characters of a tag. -/
  | handle (name : String) (text : String)
deriving DecidableEq

/-- The number of digits that a part of a version may have. -/
def versionDigits : Nat := 2

/-- Read a part of a version. -/
def versionPart : Read Nat := do
  let digits ← takeWhile Char.isDigit
  if digits.isEmpty || versionDigits < digits.length then failure
  return digits.toList.foldl (fun value c => value * 10 + (c.toNat - 48)) 0

/-- Read a version. -/
def version : Read Directive := do
  skipBlanks
  let major ← versionPart
  if (← look 0) != '.' then failure
  skip
  return .version major (← versionPart)

/-- Read what a handle stands for. -/
def handleMeaning : Read Directive := do
  skipBlanks
  let name ← tagHandle
  if name != "!" && !(name.length > 1 && name.endsWith "!") then failure
  need 1
  unless isBlank (← look 0) do failure
  skipBlanks
  let text ← tagChars
  need 1
  unless isGap (← look 0) do failure
  return .handle name text

/-- Read a directive, which takes a line of its own. -/
def directive : Read Directive := do
  skip
  let name ← takeWhile isNameChar
  unless isGap (← look 0) do failure
  let d ←
    if name == "YAML" then version
    else if name == "TAG" then handleMeaning
    else failure
  skipLine
  return d

end DotCompletion.Yaml
