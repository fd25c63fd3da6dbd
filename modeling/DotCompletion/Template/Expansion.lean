import DotCompletion.Completion.Proposal
import DotCompletion.Template.Basic

/-!
# Applying templates

A template makes one proposal for the first candidate it accepts. The text of
the candidate goes into an editor snippet, where some characters have a meaning
of their own and must be escaped.
-/

namespace DotCompletion

namespace Snippet

/-- The characters that mean something in a snippet. -/
def special : List Char := ['\\', '$', '\x7d']

/-- Text written so that a snippet shows it as it is. -/
def escape (text : Bytes) : Bytes :=
  text.flatMap fun b =>
    if special.any (·.toUInt8 == b) then ['\\'.toUInt8, b] else [b]

/-- Put texts in the places of marks, from left to right. `skip` bytes still
belong to the mark replaced last. -/
def fill (marks : List (Bytes × Bytes)) : Nat → Bytes → Bytes
  | _, [] => []
  | skip + 1, _ :: rest => fill marks skip rest
  | 0, b :: rest =>
    match marks.find? fun m => m.1.isPrefixOf (b :: rest) with
    | some (mark, text) => text ++ fill marks (mark.length - 1) rest
    | none => b :: fill marks 0 rest

end Snippet

namespace Template

/-- The classes of number types, boxed. -/
def boxedNumbers : List String :=
  ["Byte", "Short", "Character", "Integer", "Long", "Float", "Double"]

/-- The type is one that an entry of `types` means: one of four classes of
types, or the type of that name. -/
def acceptsType (type : StaticType) (entry : String) : Bool :=
  if entry = "boolean" then type.isBoolean
  else if entry = "number" then type.isNumeric || boxedNumbers.any type.isNamed
  else if entry = "array" then type.isArray
  else if entry = "object" then !type.isPrimitive && type != .null
  else type.isNamed entry

/-- The candidate has a fitting type. An unknown type fits if the user asked for
completion. -/
def acceptsTypeOf (t : Template) (force : Bool) (c : Candidate) : Bool :=
  t.types.isEmpty ||
    match c.type with
    | some type => t.types.any (acceptsType type)
    | none => force

/-- The candidate is eligible. -/
def accepts (t : Template) (force : Bool) (c : Candidate) : Bool :=
  (!t.statement || c.canBeStatement) && t.acceptsTypeOf force c

/-- The kinds of expressions that need no brackets around them. -/
def primaryKinds : List NodeKind :=
  [.referenceExpr, .callExpr, .literal, .parenExpr, .thisExpr, .arrayAccess, .newExpr,
   .classLiteral, .methodRef]

/-- The expression as it goes into the body. -/
def expressionText (t : Template) (c : Candidate) : Bytes :=
  if t.parenthesize && !(c.kind.map primaryKinds.contains).getD false then
    '('.toUInt8 :: c.text ++ [')'.toUInt8]
  else c.text

/-- The type as it goes into the body. -/
def typeText (c : Candidate) : Bytes :=
  match c.type with
  | some type => if type = .null then Bytes.ofString "var" else type.text
  | none => Bytes.ofString "var"

/-- The snippet for a candidate. -/
def render (t : Template) (c : Candidate) : Bytes :=
  Snippet.fill
    [(expressionMark, Snippet.escape (t.expressionText c)),
     (typeMark, Snippet.escape (typeText c))]
    0 (Bytes.ofString t.body)

/-- The proposal for a candidate. -/
def proposal (t : Template) (c : Candidate) : Proposal where
  label := t.name
  detail := t.description
  documentation := t.sample
  snippet := t.render c
  replace := c.replace
  provider := ""

/-- The candidates in the order in which the template tries them. -/
def ordered (t : Template) (candidates : List Candidate) : List Candidate :=
  if t.outermost then candidates.reverse else candidates

/-- The candidate that the template applies to. -/
def choose? (t : Template) (force : Bool) (candidates : List Candidate) : Option Candidate :=
  (t.ordered candidates).find? (t.accepts force)

/-- The provider of a template. -/
def provider (t : Template) : Provider where
  metadata := some ⟨t.name, t.description, t.sample⟩
  create := fun s candidates => some ((t.choose? s.force candidates).map t.proposal).toList

/-- The manager of a set of templates. -/
def manager (templates : List Template) : Manager :=
  .ofProviders (templates.map provider)

end Template

end DotCompletion
