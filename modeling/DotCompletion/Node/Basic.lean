import DotCompletion.Node.Kind
import DotCompletion.Token.Stream

/-!
# Syntax nodes

A parsed source is a tree of nodes. Leaves carry the token they were made from;
a node of kind `error` carries a diagnostic that says what went wrong there.
The tree keeps the tokens of the source, so that broken code can be looked at
as well as correct code.
-/

namespace DotCompletion

/-- What is wrong with a piece of code. -/
inductive Problem where
  /-- A token of this kind is missing. -/
  | expected (kind : TokenKind)
  | expectedIdentifier
  | expectedExpression
  | expectedType
  | expectedStatement
  | expectedResource
  | expectedMember
  | expectedTypeDeclaration
  /-- A token of this kind fits nowhere. -/
  | unexpected (kind : TokenKind)
  /-- A problem described in free text. -/
  | note (text : String)
deriving DecidableEq, Repr

namespace Problem

/-- The problem in words. -/
def message : Problem → String
  | expected kind => "expected " ++ kind.name
  | expectedIdentifier => "expected identifier"
  | expectedExpression => "expected expression"
  | expectedType => "expected type"
  | expectedStatement => "expected statement"
  | expectedResource => "expected resource"
  | expectedMember => "expected member declaration"
  | expectedTypeDeclaration => "expected type declaration"
  | unexpected kind => "unexpected " ++ kind.name
  | note text => text

/-- The kinds of tokens that would have been right. -/
def wanted : Problem → List TokenKind
  | expected kind => [kind]
  | expectedIdentifier => [.identifier]
  | _ => []

end Problem

/-- A problem, and the token that was met instead. -/
structure Diagnostic where
  problem : Problem
  got : Option Token
deriving DecidableEq, Repr

namespace Diagnostic

/-- The problem in words. -/
def message (d : Diagnostic) : String := d.problem.message

end Diagnostic

/-- A node of a syntax tree. -/
structure Node where
  kind : NodeKind
  span : Span
  token : Option Token
  error : Option Diagnostic
  children : List Node

namespace Node

/-- A leaf made from one token. -/
def leaf (kind : NodeKind) (t : Token) : Node :=
  ⟨kind, t.span, some t, none, []⟩

/-- An empty error node at a position. -/
def missing (p : Position) (d : Diagnostic) : Node :=
  ⟨.error, .point p, none, some d, []⟩

/-- The span of a row of nodes: from the first to the last, or the empty span
at `p` if there are none. -/
def spanOf (p : Position) : List Node → Span
  | [] => .point p
  | first :: rest => ⟨first.span.start, ((first :: rest).getLast (by simp)).span.stop⟩

/-- A node around others; without children it is empty and stands at `p`. -/
def around (kind : NodeKind) (error : Option Diagnostic) (p : Position)
    (children : List Node) : Node :=
  ⟨kind, spanOf p children, none, error, children⟩

/-- The text of the node's own token. -/
def literal (n : Node) : Bytes :=
  (n.token.map Token.literal).getD []

/-- The node marks an error. -/
def isError (n : Node) : Bool := n.kind == .error

/-- Where the first child of a kind stands among the children. -/
def indexOfKind? (n : Node) (kind : NodeKind) : Option Nat :=
  n.children.findIdx? fun c => c.kind == kind

/-- Where the children of a kind stand among the children. -/
def indicesOfKind (n : Node) (kind : NodeKind) : List Nat :=
  (List.range n.children.length).filter fun i =>
    (n.children[i]?.map fun c => c.kind == kind).getD false

/-- The node reached by following child numbers. -/
def descendant? (n : Node) : List Nat → Option Node
  | [] => some n
  | i :: path => n.children[i]?.bind fun c => c.descendant? path

end Node

end DotCompletion
