import DotCompletion.Template.Basic
import DotCompletion.Yaml.Meaning

/-!
# Templates from YAML

A document is a mapping with the one key `templates`, whose value is a sequence
of mappings. Keys other than those of a template, keys given twice and values of
the wrong sort are refused. A value that is null leaves its field as it is, and
an item that is null is left out. A mapping can take entries over from others,
except those whose keys it has itself.
-/

namespace DotCompletion.Settings

/-- How many values were looked at, and how many of them in a value that occurs
again. -/
structure Effort where
  steps : Nat
  repeated : Nat

namespace Effort

/-- More than its share is repeated: 99 of 100 steps may be in small documents and
one of ten in large ones, with all shares between them. -/
def isExcessive (e : Effort) : Bool :=
  let small := 400000
  let large := 4000000
  100 < e.repeated && 1000 < e.steps &&
    (if e.steps ≤ small then 99 * e.steps < 100 * e.repeated
      else if large ≤ e.steps then e.steps < 10 * e.repeated
      else
        e.steps * (99 * (large - small) - 89 * (e.steps - small))
          < 100 * (large - small) * e.repeated)

end Effort

/-- Making sense of a document; it may fail. -/
abbrev Decode := StateT Effort Option

namespace Decode

/-- Look at one more value. -/
def step (repeated : Bool) : Decode Unit := do
  modify fun e => ⟨e.steps + 1, e.repeated + (if repeated then 1 else 0)⟩
  if (← get).isExcessive then failure

/-- The value that is meant, and whether it occurs again. A value that contains
itself means nothing. -/
def follow (repeated : Bool) (y : Yaml) : Decode (Yaml × Bool) := do
  step repeated
  match y with
  | .alias _ none => failure
  | .alias _ (some target) =>
    step true
    return (target, true)
  | y => return (y, repeated)

/-- What a scalar means. -/
def meaning (repeated : Bool) (y : Yaml) : Decode (String × Yaml.Meaning) := do
  match (← follow repeated y).1 with
  | .scalar text isPlain tag => return (text, ← Yaml.meaning? text isPlain tag)
  | _ => failure

/-- A scalar as a text, whatever it looks like; none if it is null. -/
def text? (repeated : Bool) (y : Yaml) : Decode (Option String) := do
  match ← meaning repeated y with
  | (_, .null) => return none
  | (text, .switch _) => return some text
  | (_, .text s) => return some s

/-- Further words for true, in quotes or not. -/
def looseTruths : List String := ["y", "Y", "yes", "on"]

/-- Further words for false, in quotes or not. -/
def looseFalsehoods : List String := ["n", "N", "no", "off"]

/-- A scalar as a switch; none if it is null. -/
def switch? (repeated : Bool) (y : Yaml) : Decode (Option Bool) := do
  match ← meaning repeated y with
  | (_, .null) => return none
  | (_, .switch on) => return some on
  | (_, .text s) =>
    if looseTruths.contains s then return some true
    else if looseFalsehoods.contains s then return some false
    else failure

/-- Whether a value is a scalar that is null. -/
def isNull (y : Yaml) : Decode Bool := do
  match y with
  | .scalar text isPlain tag => return (← Yaml.meaning? text isPlain tag) = .null
  | _ => return false

/-- A sequence, item by item; null items are left out, and null is empty. -/
def items {α : Type} (item? : Bool → Yaml → Decode (Option α)) (repeated : Bool) (y : Yaml) :
    Decode (List α) := do
  match ← follow repeated y with
  | (.sequence items, repeated) => items.filterMapM (item? repeated)
  | (y, _) => if ← isNull y then return [] else failure

/-- How to change a record by the value of a field, for each field by name. -/
abbrev Fields (σ : Type) := String → Option (Bool → Yaml → σ → Decode σ)

/-- What was made of a mapping so far. -/
structure Progress (σ : Type) where
  record : σ
  /-- The fields that the mapping has given. -/
  given : List String
  /-- The keys of the mapping that takes over the entries of this one, and those
  taken over already. -/
  seen : Option (List String)

/-- Change a record by one entry of a mapping. Entries with a null key, and those
that are given elsewhere, are left out. -/
def field {σ : Type} (fields : Fields σ) (repeated : Bool) (p : Progress σ)
    (entry : Yaml × Yaml) : Decode (Progress σ) := do
  if Yaml.isMerge entry.1 then return p
  match ← text? repeated entry.1 with
  | none => return p
  | some name =>
    if (p.seen.map (·.contains name)).getD false then return p
    let seen := p.seen.map (name :: ·)
    match fields name with
    | none => failure
    | some change =>
      if p.given.contains name then failure
      return ⟨← change repeated entry.2 p.record, name :: p.given, seen⟩

/-- The keys of a mapping. -/
def keys (repeated : Bool) (entries : List (Yaml × Yaml)) : Decode (List String) :=
  entries.filterMapM fun (key, _) => text? repeated key

/-- The value is a mapping, perhaps one that occurs again. -/
def isMapping : Yaml → Bool
  | .mapping _ | .alias _ (some (.mapping _)) => true
  | _ => false

/-- The mappings that another one takes entries over from. -/
def sources (value : Yaml) : Decode (List Yaml) :=
  match value with
  | .sequence items => if items.all isMapping then return items else failure
  | value => if isMapping value then return [value] else failure

/-- Change a record by the entries of a mapping, and then by those that it takes
over from others. Gives the keys seen, too. The count bounds how often mappings
take over from others in turn. -/
def mapping {σ : Type} (fields : Fields σ) :
    Nat → (repeated : Bool) → (seen : Option (List String)) → List (Yaml × Yaml) → σ
      → Decode (σ × Option (List String))
  | 0, _, _, _, _ => failure
  | n + 1, repeated, seen, entries, record => do
    unless Yaml.distinctKeys entries do failure
    let p ← entries.foldlM (field fields repeated) ⟨record, [], seen⟩
    match entries.reverse.find? (Yaml.isMerge ·.1) with
    | none => return (p.record, p.seen)
    | some (_, value) =>
      let seen ←
        match p.seen with
        | some seen => pure seen
        | none => keys repeated entries
      let values ← sources value
      values.foldlM (fun (record, seen) value => do
        match ← follow repeated value with
        | (.mapping entries, repeated) => mapping fields n repeated seen entries record
        | _ => failure) (p.record, some seen)

/-- A record written as a mapping; none if it is null. -/
def record? {σ : Type} (fields : Fields σ) (depth : Nat) (blank : σ) (repeated : Bool) (y : Yaml) :
    Decode (Option σ) := do
  match ← follow repeated y with
  | (.mapping entries, repeated) =>
    return some (← mapping fields depth repeated none entries blank).1
  | (y, _) => if ← isNull y then return none else failure

/-- A field that is a text. -/
def textField {σ : Type} (set : String → σ → σ) (repeated : Bool) (y : Yaml) (record : σ) :
    Decode σ := do
  return ((← text? repeated y).map (set · record)).getD record

/-- A field that is a switch. -/
def switchField {σ : Type} (set : Bool → σ → σ) (repeated : Bool) (y : Yaml) (record : σ) :
    Decode σ := do
  return ((← switch? repeated y).map (set · record)).getD record

/-- The fields of a template. -/
def templateFields : Fields Template
  | "name" => some (textField fun v t => { t with name := v })
  | "description" => some (textField fun v t => { t with description := v })
  | "example" => some (textField fun v t => { t with sample := v })
  | "statement" => some (switchField fun v t => { t with statement := v })
  | "outermost" => some (switchField fun v t => { t with outermost := v })
  | "parenthesize" => some (switchField fun v t => { t with parenthesize := v })
  | "types" => some fun repeated y t => return { t with types := ← items text? repeated y }
  | "body" => some (textField fun v t => { t with body := v })
  | _ => none

/-- The fields of a document. -/
def documentFields (depth : Nat) : Fields (List Template)
  | "templates" => some fun repeated y _ =>
    items (record? templateFields depth .blank) repeated y
  | _ => none

/-- The templates of a document. -/
def document (depth : Nat) (y : Yaml) : Decode (List Template) := do
  step false
  return (← record? (documentFields depth) depth [] false y).getD []

end Decode

/-- The templates of a YAML text; `none` if it does not describe templates. -/
def decodeYaml? (text : Bytes) : Option (List Template) :=
  (Yaml.parse text).bind fun
    | some y => ((Decode.document (text.length + 1) y).run ⟨0, 0⟩).map Prod.fst
    | none => some []

end DotCompletion.Settings
