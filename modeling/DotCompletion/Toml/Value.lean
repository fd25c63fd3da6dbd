import DotCompletion.Toml.Text

/-!
# TOML documents

A document is a list of lines: table headers, and keys with values. Of values,
strings, booleans, arrays and inline tables are read; numbers and dates are
refused, since no setting is one.
-/

namespace DotCompletion

/-- A value of a document. -/
inductive Toml where
  | text (s : String)
  | bool (b : Bool)
  | list (items : List Toml)
  | table (entries : List (List String × Toml))

namespace Toml

/-- Behind blanks, comments and line breaks. The count bounds the number of
lines. -/
def skipLines : Nat → List Char → Option (List Char)
  | 0, s => some s
  | n + 1, s =>
    match skipBlank s with
    | '#' :: rest => (comment? rest).bind (skipLines n)
    | s =>
      match lineBreak? s with
      | some rest => skipLines n rest
      | none => some s

/-- Behind blanks, comments and line breaks. -/
def toItem (s : List Char) : Option (List Char) := skipLines (s.length + 1) s

/-- What follows a word. -/
def word? (word : String) (s : List Char) : Option (List Char) :=
  if word.toList.isPrefixOf s then some (s.drop word.length) else none

mutual

/-- Read a value. The count bounds the depth. -/
def value? : Nat → List Char → Option (Toml × List Char)
  | 0, _ => none
  | n + 1, s =>
    match s with
    | [] => none
    | c :: rest =>
      if c == '\x22' || c == '\x27' then (text? c rest).map fun (t, s) => (.text t, s)
      else if c == 't' then (word? "true" s).map fun s => (.bool true, s)
      else if c == 'f' then (word? "false" s).map fun s => (.bool false, s)
      else if c == '[' then (items? n true rest).map fun (items, s) => (.list items, s)
      else if c == '\x7b' then
        (fields? n true rest).map fun (fields, s) => (.table fields, s)
      else none

/-- Read the items of an array and its closing bracket. A comma may follow the
last item. -/
def items? : Nat → (first : Bool) → List Char → Option (List Toml × List Char)
  | 0, _, _ => none
  | n + 1, first, s => do
    let s ← toItem s
    if s.head? = some ']' then some ([], s.drop 1)
    else
      let s ←
        if first then some s
        else if s.head? = some ',' then toItem (s.drop 1)
        else none
      if s.head? = some ']' then some ([], s.drop 1)
      else
        let (item, s) ← value? n s
        let (items, s) ← items? n false s
        some (item :: items, s)

/-- Read the entries of an inline table and its closing brace. -/
def fields? : Nat → (first : Bool) → List Char → Option (List (List String × Toml) × List Char)
  | 0, _, _ => none
  | n + 1, first, s => do
    let s := skipBlank s
    if s.head? = some '\x7d' then some ([], s.drop 1)
    else
      let s ←
        if first then some s
        else if s.head? = some ',' then some (skipBlank (s.drop 1))
        else none
      let (field, s) ← assignment? n s
      let (fields, s) ← fields? n false s
      some (field :: fields, s)

/-- Read a key and its value. -/
def assignment? : Nat → List Char → Option ((List String × Toml) × List Char)
  | 0, _ => none
  | n + 1, s => do
    let (key, s) ← key? s.length s
    match skipBlank s with
    | '=' :: rest =>
      let (value, s) ← value? n (skipBlank rest)
      some ((key, value), s)
    | _ => none

end

/-- A line of a document. -/
inductive Line where
  /-- A table, or one more item of an array of tables. -/
  | header (key : List String) (isArray : Bool)
  | entry (key : List String) (value : Toml)

/-- Read what stands between the brackets of a header, and the closing ones. -/
def header? (closing : String) (s : List Char) : Option (List String × List Char) := do
  let s := skipBlank s
  let (key, s) ← key? s.length s
  let s ← word? closing (skipBlank s)
  some (key, s)

/-- Read a line that is neither blank nor a comment. -/
def line? (s : List Char) : Option (Line × List Char) :=
  match s with
  | '[' :: '[' :: rest => (header? "]]" rest).map fun (key, s) => (.header key true, s)
  | '[' :: rest => (header? "]" rest).map fun (key, s) => (.header key false, s)
  | _ => (assignment? (2 * s.length + 2) s).map fun ((key, value), s) => (.entry key value, s)

/-- Behind the end of a line: blanks, a comment, and a line break unless the
text ends. -/
def endOfLine? (s : List Char) : Option (List Char) := do
  let s := skipBlank s
  let s ← match s with
    | '#' :: rest => comment? rest
    | s => some s
  if s.isEmpty then some [] else lineBreak? s

/-- Read the lines of a document. The count bounds their number. -/
def linesFrom : Nat → List Char → Option (List Line)
  | 0, _ => none
  | n + 1, s =>
    let s := skipBlank s
    match s with
    | [] => some []
    | c :: _ =>
      if c == '#' || c == '\n' || c == '\r' then (endOfLine? s).bind (linesFrom n)
      else do
        let (line, s) ← line? s
        let s ← endOfLine? s
        let lines ← linesFrom n s
        some (line :: lines)

/-- The lines of a document. -/
def parse (text : String) : Option (List Line) :=
  let s := text.toList
  linesFrom (s.length + 1) s

end Toml

end DotCompletion
