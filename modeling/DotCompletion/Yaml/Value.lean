import DotCompletion.Yaml.Token

/-!
# YAML values

A document is a tree of scalars, sequences and mappings, in which a value with a
name may occur again. Only the first document of a text is read, and of what
follows it only as many tokens as it takes to see that it has ended.
-/

namespace DotCompletion

/-- A value of a document. A value that is left out is an empty plain scalar. -/
inductive Yaml where
  /-- A scalar, with its tag in short form if it has one. -/
  | scalar (text : String) (isPlain : Bool) (tag : Option String)
  | sequence (items : List Yaml)
  | mapping (entries : List (Yaml × Yaml))
  /-- A value that occurs again. There is none if this is inside of it. -/
  | alias (name : String) (target : Option Yaml)

namespace Yaml

/-- A value that is left out. -/
def missing : Yaml := .scalar "" true none

/-- What the tags of the standard types begin with. -/
def standardLead : String := "tag:yaml.org,2002:"

/-- The handles that need no directive. -/
def standardHandles : List (String × String) := [("!", "!"), ("!!", standardLead)]

/-- A tag in short form: two exclamation marks stand for what the tags of the
standard types begin with. A lone mark says nothing. -/
def shortForm? (tag : String) : Option String :=
  if tag = "!" then none
  else if standardLead.isPrefixOf tag then
    some ("!!" ++ String.ofList (tag.toList.drop standardLead.length))
  else some tag

/-- A value with a name. -/
structure Anchor where
  name : String
  /-- How many names there were before. -/
  number : Nat
  /-- The value, if it was read to its end. -/
  value : Option Yaml

/-- The state of reading a document. -/
structure Reader where
  scanner : Scanner
  /-- What each handle stands for. -/
  handles : List (String × String)
  /-- The values with a name, the last one first. -/
  anchors : List Anchor

/-- Reading values; it may fail. -/
abbrev Parse := StateT Reader Option

/-- Reading tokens is a part of reading values. -/
instance : MonadLift Scan Parse :=
  ⟨fun r s => (r s.scanner).map fun (a, scanner) => (a, { s with scanner })⟩

namespace Parse

/-- The next token. -/
def peek : Parse Token := Scan.peek

/-- Go behind the next token. -/
def drop : Parse Unit := Scan.drop

/-- Give a name to a value that is about to be read. -/
def openAnchor : Option String → Parse Unit
  | none => pure ()
  | some name => modify fun s => { s with anchors := ⟨name, s.anchors.length, none⟩ :: s.anchors }

/-- The value that was given the name with a number was read. -/
def closeAnchor (number : Nat) (value : Yaml) : Parse Unit :=
  modify fun s =>
    { s with
      anchors := s.anchors.map fun a =>
        if a.number = number then { a with value := some value } else a }

/-- Read a value, and give it a name from its beginning on. -/
def named (name : Option String) (read : Parse Yaml) : Parse Yaml := do
  let number := (← get).anchors.length
  openAnchor name
  let value ← read
  if name.isSome then closeAnchor number value
  return value

/-- The value with a name once more; there must be one. -/
def again (name : String) : Parse Yaml := do
  match (← get).anchors.find? (·.name == name) with
  | some a => return .alias name a.value
  | none => failure

/-- The tag that is written in some form; its handle must be known. -/
def tagText : Tag → Parse String
  | .full text => pure text
  | .short handle suffix => do
    match (← get).handles.lookup handle with
    | some lead => return lead ++ suffix
    | none => failure

/-- What stands in front of a value. -/
structure Properties where
  anchor : Option String
  tag : Option String

/-- Read a name, if there is one. -/
def anchor? : Parse (Option String) := do
  match ← peek with
  | .anchor name =>
    drop
    return some name
  | _ => return none

/-- Read a tag, if there is one. -/
def tag? : Parse (Option Tag) := do
  match ← peek with
  | .tag t =>
    drop
    return some t
  | _ => return none

/-- Read a name and a tag, in either order. -/
def properties : Parse Properties := do
  let before ← anchor?
  let tag ← tag?
  let anchor ← if before.isNone && tag.isSome then anchor? else pure before
  return ⟨anchor, ← tag.mapM tagText⟩

/-- A value that is left out behind its name or its tag. -/
def bare (p : Properties) : Parse Yaml :=
  if p.anchor.isSome || p.tag.isSome then
    named p.anchor (return .scalar "" true (p.tag.bind shortForm?))
  else failure

/-- The tokens in front of which a key or a value of a block is left out. -/
def blockGapTokens : List Token := [.key, .value, .blockEnd]

mutual

/-- Read a value. Blocks are read where `inBlock`; a sequence need not be
indented further than the mapping it stands in where `flush`. The count bounds
the depth. -/
def node : Nat → (inBlock flush : Bool) → Parse Yaml
  | 0, _, _ => failure
  | n + 1, inBlock, flush => do
    if let .alias name ← peek then
      drop
      return ← again name
    let p ← properties
    match ← peek with
    | .scalar text isPlain =>
      drop
      named p.anchor (return .scalar text isPlain (p.tag.bind shortForm?))
    | .flowSequence =>
      drop
      named p.anchor (flowItems n true [])
    | .flowMapping =>
      drop
      named p.anchor (flowFields n true [])
    | .blockEntry =>
      if flush then named p.anchor (flushItems n []) else bare p
    | .blockSequence =>
      if inBlock then
        drop
        named p.anchor (blockItems n [])
      else bare p
    | .blockMapping =>
      if inBlock then
        drop
        named p.anchor (blockFields n [])
      else bare p
    | _ => bare p

/-- Read the items of a block sequence behind those in `before`, the last one
first, and its end. -/
def blockItems : Nat → (before : List Yaml) → Parse Yaml
  | 0, _ => failure
  | n + 1, before => do
    match ← peek with
    | .blockEntry =>
      drop
      let t ← peek
      let item ←
        if t = .blockEntry ∨ t = .blockEnd then pure missing else node n true false
      blockItems n (item :: before)
    | .blockEnd =>
      drop
      return .sequence before.reverse
    | _ => failure

/-- Read the items of a sequence that is not indented. -/
def flushItems : Nat → (before : List Yaml) → Parse Yaml
  | 0, _ => failure
  | n + 1, before => do
    match ← peek with
    | .blockEntry =>
      drop
      let t ← peek
      let item ←
        if t = .blockEntry ∨ blockGapTokens.contains t then pure missing
        else node n true false
      flushItems n (item :: before)
    | _ => return .sequence before.reverse

/-- Read the entries of a block mapping behind those in `before`, the last one
first, and its end. -/
def blockFields : Nat → (before : List (Yaml × Yaml)) → Parse Yaml
  | 0, _ => failure
  | n + 1, before => do
    match ← peek with
    | .key =>
      drop
      let key ← blockPart n
      let value ←
        if (← peek) = .value then
          drop
          blockPart n
        else pure missing
      blockFields n ((key, value) :: before)
    | .blockEnd =>
      drop
      return .mapping before.reverse
    | _ => failure

/-- Read a key or a value of a block mapping. -/
def blockPart : Nat → Parse Yaml
  | 0 => failure
  | n + 1 => do
    if blockGapTokens.contains (← peek) then pure missing else node n true true

/-- Read the items of a sequence in brackets behind those in `before`, the last
one first, and the closing bracket. An item may be a single entry of a mapping;
where its key is left out, the token behind the question mark is passed over. -/
def flowItems : Nat → (first : Bool) → (before : List Yaml) → Parse Yaml
  | 0, _, _ => failure
  | n + 1, first, before => do
    if !first && (← peek) ≠ .flowSequenceEnd then
      if (← peek) ≠ .flowEntry then failure
      drop
    match ← peek with
    | .flowSequenceEnd =>
      drop
      return .sequence before.reverse
    | .key =>
      drop
      let t ← peek
      let key ←
        if t = .value ∨ t = .flowEntry ∨ t = .flowSequenceEnd then
          drop
          pure missing
        else node n false false
      let value ← flowValue n .flowSequenceEnd
      flowItems n false (.mapping [(key, value)] :: before)
    | _ =>
      let item ← node n false false
      flowItems n false (item :: before)

/-- Read the entries of a mapping in braces behind those in `before`, the last
one first, and the closing brace. -/
def flowFields : Nat → (first : Bool) → (before : List (Yaml × Yaml)) → Parse Yaml
  | 0, _, _ => failure
  | n + 1, first, before => do
    if !first && (← peek) ≠ .flowMappingEnd then
      if (← peek) ≠ .flowEntry then failure
      drop
    match ← peek with
    | .flowMappingEnd =>
      drop
      return .mapping before.reverse
    | .key =>
      drop
      let t ← peek
      let key ←
        if t = .value ∨ t = .flowEntry ∨ t = .flowMappingEnd then pure missing
        else node n false false
      let value ← flowValue n .flowMappingEnd
      flowFields n false ((key, value) :: before)
    | _ =>
      let key ← node n false false
      flowFields n false ((key, missing) :: before)

/-- Read a value in brackets or braces, if there is a colon. -/
def flowValue : Nat → (closing : Token) → Parse Yaml
  | 0, _ => failure
  | n + 1, closing => do
    if (← peek) = .value then
      drop
      let t ← peek
      if t = .flowEntry ∨ t = closing then pure missing else node n false false
    else pure missing

end

/-- The only version of the format. -/
def knownVersion : Nat × Nat := (1, 1)

/-- Read the directives in front of a document. The version and the meaning of a
handle can be given only once. The count bounds their number. -/
def directives : Nat → (versioned : Bool) → Parse Unit
  | 0, _ => failure
  | n + 1, versioned => do
    match ← peek with
    | .directive (.version major minor) =>
      if versioned || (major, minor) ≠ knownVersion then failure
      drop
      directives n true
    | .directive (.handle name text) =>
      if ((← get).handles.lookup name).isSome then failure
      drop
      modify fun s => { s with handles := (name, text) :: s.handles }
      directives n versioned
    | _ => pure ()

/-- A token in front of which a document is empty. -/
def endsDocument : Token → Bool
  | .directive _ | .documentStart | .documentEnd | .streamEnd => true
  | _ => false

/-- Read the content of a document, and see that it has ended. -/
def content (depth : Nat) : Parse Yaml := do
  modify fun s => { s with handles := s.handles ++ standardHandles }
  let value ← node depth true false
  let _ ← peek
  return value

/-- Read the first document of a text; there may be none. -/
def document (depth : Nat) : Parse (Option Yaml) := do
  match ← peek with
  | .streamEnd => return none
  | .directive _ | .documentStart =>
    directives depth false
    if (← peek) ≠ .documentStart then failure
    drop
    if endsDocument (← peek) then return some missing
    return some (← content depth)
  | _ => return some (← content depth)

end Parse

/-- The first document of a text, `some none` if there is none, and `none` if it
is malformed. -/
def parse (text : Bytes) : Option (Option Yaml) :=
  let chars := Readable.ofBytes text
  ((Parse.document (8 * chars.chars.length + 8)).run ⟨.start chars, [], []⟩).map Prod.fst

end Yaml

end DotCompletion
