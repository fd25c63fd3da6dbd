import DotCompletion.Node.Render
import DotCompletion.Tree.Query

/-!
# Listings of trees with addresses

The same listing as for nodes: one line per node, indented by the number of
nodes around it.
-/

namespace DotCompletion.Tree

/-- The line of a node. -/
def line (t : Tree) (id : Nat) : Bytes :=
  indentation (t.ancestors id).length
    ++ Bytes.ofString (((t.kind? id).map NodeKind.name).getD "Unknown")
    ++ Node.lineEnd (t.token? id) (t.error? id)

/-- The listing of a tree. -/
def render (t : Tree) : Bytes :=
  match t.root? with
  | some root => (t.walk (fun _ => true) root).flatMap t.line
  | none => []

end DotCompletion.Tree
