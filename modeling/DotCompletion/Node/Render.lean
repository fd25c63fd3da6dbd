import DotCompletion.Node.Basic

/-!
# Listings of trees

One line per node, indented by two spaces per level: the kind, on request the
position, the text of the node's token and the message of its diagnostic.
-/

namespace DotCompletion

/-- Two spaces for each level. -/
def indentation (depth : Nat) : Bytes :=
  List.replicate (2 * depth) ' '.toUInt8

namespace Node

/-- The part of a line behind the kind: token text and message. -/
def lineEnd (token : Option Token) (error : Option Diagnostic) : Bytes :=
  (match token with
    | some t => ' '.toUInt8 :: t.literal
    | none => [])
  ++ (match error with
    | some d => Bytes.ofString (" ERROR: " ++ d.message)
    | none => [])
  ++ ['\n'.toUInt8]

/-- The position of a node in listings. -/
def place (span : Span) : String :=
  " [" ++ span.start.render ++ "-" ++ span.stop.render ++ "]"

/-- The line of a node at a depth. -/
def line (positions : Bool) (depth : Nat) (n : Node) : Bytes :=
  indentation depth ++ Bytes.ofString n.kind.name
    ++ (if positions then Bytes.ofString (place n.span) else [])
    ++ lineEnd n.token n.error

mutual

/-- The lines of a node and all below it, in front of what follows them. -/
def lines (positions : Bool) (depth : Nat) : Node → Bytes → Bytes
  | ⟨kind, span, token, error, children⟩, behind =>
    line positions depth ⟨kind, span, token, error, children⟩
      ++ linesAll positions (depth + 1) children behind

/-- The lines of a row of nodes, in front of what follows them. -/
def linesAll (positions : Bool) (depth : Nat) : List Node → Bytes → Bytes
  | [], behind => behind
  | n :: rest, behind => lines positions depth n (linesAll positions depth rest behind)

end

/-- The listing of a tree. -/
def render (n : Node) : Bytes := lines false 0 n []

/-- The listing of a tree with the position of every node. -/
def renderWithPositions (n : Node) : Bytes := lines true 0 n []

end Node

end DotCompletion
