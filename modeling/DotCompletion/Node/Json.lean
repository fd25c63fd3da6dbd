import DotCompletion.Node.Basic
import DotCompletion.Text.Json

/-!
# Trees as JSON

A node is an object with its kind and span; token text, diagnostic and children
are left out where there are none.
-/

namespace DotCompletion

/-- Offset, line and column. -/
def Position.toJson (p : Position) : Json :=
  .object [("offset", .nat p.offset), ("line", .nat p.line), ("column", .nat p.column)]

/-- Start and end. -/
def Span.toJson (s : Span) : Json :=
  .object [("start", s.start.toJson), ("end", s.stop.toJson)]

/-- A field with a byte string, unless it is empty. -/
def Json.textField (name : String) (bytes : Bytes) : List (String × Json) :=
  if bytes.isEmpty then [] else [(name, .text bytes)]

/-- A field with a list, unless it is empty. -/
def Json.listField (name : String) (items : List Json) : List (String × Json) :=
  if items.isEmpty then [] else [(name, .list items)]

/-- The message, the kinds of tokens that would have been right, and the text
of the token found. -/
def Diagnostic.toJson (d : Diagnostic) : Json :=
  .object ([("message", .str d.message)]
    ++ Json.listField "expected" (d.problem.wanted.map fun k => .str k.name)
    ++ Json.textField "got" ((d.got.map Token.literal).getD []))

namespace Node

mutual

/-- A node with all below it. -/
def toJson : Node → Json
  | ⟨kind, span, token, error, children⟩ =>
    .object ([("kind", .str kind.name), ("span", span.toJson)]
      ++ Json.textField "token" ((token.map Token.literal).getD [])
      ++ (match error with
        | some d => [("error", d.toJson)]
        | none => [])
      ++ Json.listField "children" (toJsonAll children))

/-- A row of nodes. -/
def toJsonAll : List Node → List Json
  | [] => []
  | n :: rest => toJson n :: toJsonAll rest

end

end Node

end DotCompletion
