import DotCompletion.Text.Base64
import DotCompletion.Yaml.Number
import DotCompletion.Yaml.Value

/-!
# What YAML scalars mean

A plain scalar may stand for nothing, or for true or false; otherwise a scalar is
a text. A tag may say what a scalar is, and it has to be that then.
-/

namespace DotCompletion.Yaml

/-- What a scalar means. -/
inductive Meaning where
  | null
  | switch (on : Bool)
  | text (s : String)
deriving DecidableEq

/-- The words for nothing at all. -/
def nulls : List String := ["", "~", "null", "Null", "NULL"]

/-- The words for true. -/
def truths : List String := ["true", "True", "TRUE"]

/-- The words for false. -/
def falsehoods : List String := ["false", "False", "FALSE"]

namespace Meaning

/-- What a word means without quotes and without a tag. -/
def ofWord (word : String) : Meaning :=
  if nulls.contains word then .null
  else if truths.contains word then .switch true
  else if falsehoods.contains word then .switch false
  else .text word

/-- What a text means with a tag. Tags that are not known make it a text. -/
def ofTagged? (text : String) (tag : String) : Option Meaning :=
  match tag with
  | "!!null" => if nulls.contains text then some .null else none
  | "!!bool" =>
    match ofWord text with
    | .switch on => some (.switch on)
    | _ => none
  | "!!int" => if isInteger text then some (.text text) else none
  | "!!float" => if isNumber text then some (.text text) else none
  | "!!timestamp" => if isDate text then some (.text text) else none
  | "!!binary" => (Base64.decode? text).map fun bytes => .text (Utf8.toText bytes)
  | _ => some (.text text)

end Meaning

/-- What a scalar means. -/
def meaning? (text : String) (isPlain : Bool) : Option String → Option Meaning
  | none => some (if isPlain then .ofWord text else .text text)
  | some tag => Meaning.ofTagged? text tag

/-- The word that stands for the entries of another mapping. -/
def mergeWord : String := "<<"

/-- A key whose value is a mapping that is made part of this one. -/
def isMerge : Yaml → Bool
  | .scalar text isPlain tag =>
    text == mergeWord && (if tag.isSome then tag == some "!!merge" else isPlain)
  | _ => false

/-- What two keys have in common that count as the same: their kind, and the text
or the name if there is one. -/
def keyText : Yaml → Nat × String
  | .scalar text _ _ => (0, text)
  | .sequence _ => (1, "")
  | .mapping _ => (2, "")
  | .alias name _ => (3, name)

/-- No key occurs twice. -/
def distinctKeys (entries : List (Yaml × Yaml)) : Bool :=
  decide (entries.map fun e => keyText e.1).Nodup

end DotCompletion.Yaml
