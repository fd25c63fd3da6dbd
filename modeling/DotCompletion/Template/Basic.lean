import DotCompletion.Text.Blank
import DotCompletion.Text.Quoted
import DotCompletion.Token.Word

/-!
# Templates

A template says how an expression is rewritten: its body holds the placeholder
`$expr` for the expression and may hold `$type` for its type. A set of templates
is valid if every template has a name that can be typed, no name occurs twice
and every body uses the expression.
-/

namespace DotCompletion

/-- A template. -/
structure Template where
  name : String
  description : String
  /-- What an expansion looks like. -/
  sample : String
  /-- Apply only to expressions that are statements. -/
  statement : Bool
  /-- Prefer the outermost candidate. -/
  outermost : Bool
  /-- Put brackets around operators. -/
  parenthesize : Bool
  /-- The types of expressions to apply to; none means all. -/
  types : List String
  body : String
deriving DecidableEq, Repr

namespace Template

/-- A template with nothing said about it. -/
def blank : Template := ⟨"", "", "", false, false, false, [], ""⟩

/-- The placeholder for the expression. -/
def expressionMark : Bytes := Bytes.ofString "$expr"

/-- The placeholder for the type of the expression. -/
def typeMark : Bytes := Bytes.ofString "$type"

/-- What is wrong with a template. -/
inductive Fault where
  | missingName
  | invalidName
  | duplicateName
  | missingBody
  | missingExpression
deriving DecidableEq, Repr

/-- The fault in words. -/
def Fault.message : Fault → String
  | missingName => "missing name"
  | invalidName => "name is not an identifier"
  | duplicateName => "duplicate name"
  | missingBody => "missing body"
  | missingExpression => "body does not use $expr"

/-- The first fault of a template, where `seen` are the names already used. -/
def fault? (seen : List String) (t : Template) : Option Fault :=
  if t.name = "" then some .missingName
  else if !Word.isWord t.name then some .invalidName
  else if seen.contains t.name then some .duplicateName
  else if t.body.toList.all Blank.isBlank then some .missingBody
  else if !Bytes.holds expressionMark (Bytes.ofString t.body) then some .missingExpression
  else none

/-- A fault, and the template that has it. -/
structure Invalid where
  index : Nat
  name : String
  fault : Fault
deriving DecidableEq, Repr

/-- The complaint about a template. -/
def Invalid.message (e : Invalid) : String :=
  "template " ++ toString e.index ++ " (" ++ Quoted.quoteText e.name ++ "): " ++ e.fault.message

/-- The first invalid template, where the first one has number `index`. -/
def firstInvalid? (seen : List String) (index : Nat) : List Template → Option Invalid
  | [] => none
  | t :: rest =>
    match t.fault? seen with
    | some fault => some ⟨index, t.name, fault⟩
    | none => firstInvalid? (t.name :: seen) (index + 1) rest

/-- Check a set of templates. -/
def validate (templates : List Template) : Except Invalid (List Template) :=
  match firstInvalid? [] 0 templates with
  | some e => .error e
  | none => .ok templates

/-- The template with a name. -/
def lookup? (templates : List Template) (name : String) : Option Template :=
  templates.find? fun t => t.name == name

end Template

end DotCompletion
