import DotCompletion.Template.Basic
import DotCompletion.Toml.Value

/-!
# Templates from TOML

Each template is a table of the array `templates`, written with headers or
inline. Whether a table or a key was given before is decided by its name as it is
written; what it means is the same in capital letters. So a header in other
letters may begin the array anew, or add to its last table. Keys other than those
of a template, keys given twice and values of the wrong sort are refused.
-/

namespace DotCompletion.Settings

/-! ## Names given before -/

/-- What a name was given to. -/
inductive NameUse where
  | value
  /-- A table, with a header of its own or only as a part of other headers. -/
  | table (hasHeader : Bool)
  | tables
deriving DecidableEq

/-- The names that a document has given so far. -/
structure Names where
  uses : List (List String × NameUse)
  /-- The table that is open. -/
  current : List String

namespace Names

/-- No names, outside of all tables. -/
def empty : Names := ⟨[], []⟩

/-- What a name was given to. -/
def use? (names : Names) (path : List String) : Option NameUse := names.uses.lookup path

/-- The names with one more. -/
def give (names : Names) (path : List String) (use : NameUse) : Names :=
  { names with uses := (path, use) :: names.uses.filter (·.1 != path) }

/-- A key is given a value in the open table; this must be the first time. -/
def assign (names : Names) (key : String) : Option Names :=
  let path := names.current ++ [key]
  match names.use? path with
  | none => some (names.give path .value)
  | some _ => none

/-- The tables around the one that a header names: none may be a value, and those
not named before are tables without a header. `behind` are the outer parts. -/
def enter (names : Names) (behind : List String) : List String → Option Names
  | [] | [_] => some names
  | part :: parts =>
    let path := behind ++ [part]
    match names.use? path with
    | none => (names.give path (.table false)).enter path parts
    | some .value => none
    | some _ => names.enter path parts

/-- Open a table, which must not have had a header. -/
def openTable (names : Names) (path : List String) : Option Names := do
  let names ← names.enter [] path
  match names.use? path with
  | none | some (.table false) => some { names.give path (.table true) with current := path }
  | _ => none

/-- Open one more table of an array. Names in the table before it count no
longer. Tells whether this is the first table. -/
def openItem (names : Names) (path : List String) : Option (Names × Bool) := do
  let names ← names.enter [] path
  match names.use? path with
  | none => some ({ names.give path .tables with current := path }, true)
  | some .tables =>
    some (⟨names.uses.filter fun entry => !(path.isPrefixOf entry.1 && entry.1 != path), path⟩,
      false)
  | _ => none

end Names

/-! ## Values -/

/-- A string. -/
def tomlText? : Toml → Option String
  | .text s => some s
  | _ => none

/-- A boolean. -/
def tomlSwitch? : Toml → Option Bool
  | .bool b => some b
  | _ => none

/-- An array, item by item. -/
def tomlItems? {α : Type} (item? : Toml → Option α) : Toml → Option (List α)
  | .list items => items.mapM item?
  | _ => none

/-- A letter as a small letter, as far as that can make it an ASCII letter of a
key. -/
def smallLetter (c : Char) : Char := if c = '\u0130' then 'i' else c.toLower

/-- A key in small letters. -/
def smallLetters (key : String) : String := String.ofList (key.toList.map smallLetter)

/-- Change a field of a template as a key and its value say. -/
def setTomlField (t : Template) (key : String) (value : Toml) : Option Template :=
  match smallLetters key with
  | "name" => (tomlText? value).map fun v => { t with name := v }
  | "description" => (tomlText? value).map fun v => { t with description := v }
  | "example" => (tomlText? value).map fun v => { t with sample := v }
  | "statement" => (tomlSwitch? value).map fun v => { t with statement := v }
  | "outermost" => (tomlSwitch? value).map fun v => { t with outermost := v }
  | "parenthesize" => (tomlSwitch? value).map fun v => { t with parenthesize := v }
  | "types" => (tomlItems? tomlText? value).map fun v => { t with types := v }
  | "body" => (tomlText? value).map fun v => { t with body := v }
  | _ => none

/-- The one part of a key. -/
def onePart? : List String → Option String
  | [part] => some part
  | _ => none

/-- A template written as an inline table. -/
def tomlTemplate? : Toml → Option Template
  | .table entries =>
    if (entries.map Prod.fst).Nodup then
      entries.foldlM (fun t (key, value) =>
        (onePart? key).bind fun key => setTomlField t key value) .blank
    else none
  | _ => none

/-! ## Documents -/

/-- What the keys behind a header belong to. -/
inductive TomlTarget where
  | document
  /-- The last template. -/
  | template
  /-- Something that has no keys. -/
  | nothing
deriving DecidableEq

/-- The fields of a template that are not arrays. -/
def simpleFields : List String :=
  ["name", "description", "example", "statement", "outermost", "parenthesize", "body"]

/-- What was read so far of a document. -/
structure TomlState where
  /-- The templates, the last one first. -/
  templates : List Template
  names : Names
  target : TomlTarget

namespace TomlState

/-- At the beginning of a document. -/
def start : TomlState := ⟨[], .empty, .document⟩

/-- Read the header of a table. It means the last template, or one of its
fields, which must be there. -/
def table (s : TomlState) (key : List String) : Option TomlState := do
  let names ← s.names.openTable key
  match key.map smallLetters, s.templates with
  | ["templates"], _ :: _ => some { s with names, target := .template }
  | ["templates", field], t :: _ =>
    if simpleFields.contains field || (field == "types" && !t.types.isEmpty) then
      some { s with names, target := .nothing }
    else none
  | _, _ => none

/-- Read the header of a table in an array. It adds a template, or an empty type
to the last one; the first such header begins the array anew. -/
def item (s : TomlState) (key : List String) : Option TomlState := do
  let (names, first) ← s.names.openItem key
  match key.map smallLetters with
  | ["templates"] =>
    some ⟨.blank :: (if first then [] else s.templates), names, .template⟩
  | ["templates", "types"] =>
    let (t, before) :=
      match s.templates with
      | t :: before => (t, before)
      | [] => (.blank, [])
    let t := { t with types := (if first then [] else t.types) ++ [""] }
    some ⟨t :: before, names, .nothing⟩
  | _ => none

/-- Read a key and its value. -/
def entry (s : TomlState) (key : String) (value : Toml) : Option TomlState := do
  let names ← s.names.assign key
  match s.target, s.templates with
  | .document, _ =>
    if smallLetters key = "templates" then
      let templates ← tomlItems? tomlTemplate? value
      some { s with templates := templates.reverse, names }
    else none
  | .template, t :: before =>
    let t ← setTomlField t key value
    some { s with templates := t :: before, names }
  | _, _ => none

/-- Read one line. -/
def read (s : TomlState) : Toml.Line → Option TomlState
  | .header key true => s.item key
  | .header key false => s.table key
  | .entry key value => (onePart? key).bind fun key => s.entry key value

end TomlState

/-- The templates of a TOML text; `none` if it does not describe templates. -/
def decodeToml? (text : String) : Option (List Template) :=
  ((Toml.parse text).bind fun lines => lines.foldlM TomlState.read .start).map
    fun s => s.templates.reverse

end DotCompletion.Settings
