import DotCompletion.Tree.Basic

/-!
# Relations between nodes

Siblings, ancestors, descendants, and the leaf under a cursor.
-/

namespace DotCompletion.Tree

/-- The node has a kind with the given property. -/
def hasKind (t : Tree) (p : NodeKind → Bool) (id : Nat) : Bool :=
  ((t.kind? id).map p).getD false

/-- The node is of the given kind. -/
def isA (t : Tree) (kind : NodeKind) (id : Nat) : Bool := t.hasKind (· == kind) id

/-- The node is an expression. -/
def isExpression (t : Tree) (id : Nat) : Bool := t.hasKind NodeKind.isExpression id

/-- The node is a statement. -/
def isStatement (t : Tree) (id : Nat) : Bool := t.hasKind NodeKind.isStatement id

/-- The first child of one of the given kinds. -/
def firstOfKind? (t : Tree) (kinds : List NodeKind) (id : Nat) : Option Nat :=
  (t.children id).find? (t.hasKind kinds.contains)

/-- The siblings in front of a node, the nearest first. -/
def before (t : Tree) (id : Nat) : List Nat :=
  follow t.previous? t.size (t.previous? id)

/-- The nodes around a node, from the inside out. -/
def ancestors (t : Tree) (id : Nat) : List Nat :=
  follow t.parent? t.size (t.parent? id)

/-- The nearest node around a node whose kind has the given property. -/
def ancestor? (t : Tree) (p : NodeKind → Bool) (id : Nat) : Option Nat :=
  (t.ancestors id).find? (t.hasKind p)

/-- The nearest sibling in front whose kind has the given property. -/
def previousOf? (t : Tree) (p : NodeKind → Bool) (id : Nat) : Option Nat :=
  (t.before id).find? (t.hasKind p)

/-- `outer` is properly around `id`. -/
def isAncestor (t : Tree) (outer id : Nat) : Bool := (t.ancestors id).contains outer

/-- A node and the nodes below it in the order of their numbers, down to a
number of levels, in front of `behind`. Below a node that is not to be entered
nothing is listed. -/
def walkTo (t : Tree) (enter : NodeKind → Bool) : Nat → Nat → List Nat → List Nat
  | 0, _, behind => behind
  | levels + 1, id, behind =>
    match t.slot? id with
    | none => behind
    | some s =>
      id :: if enter s.kind then (t.children id).foldr (t.walkTo enter levels) behind else behind

/-- A node and all nodes below it, leaving out what is below nodes that are not
to be entered. -/
def walk (t : Tree) (enter : NodeKind → Bool) (id : Nat) : List Nat :=
  t.walkTo enter t.size id []

/-- The leaf under an offset, among the rows from number `id` on. -/
def leafFrom (offset : Int) (touching : Option Nat) (id : Nat) : List Slot → Option Nat
  | [] => touching
  | s :: rest =>
    if s.first.isSome || s.span.isEmpty then leafFrom offset touching (id + 1) rest
    else if (s.span.start.offset : Int) < offset ∧ offset ≤ s.span.stop.offset then some id
    else
      let touching :=
        if (s.span.start.offset : Int) = offset then touching <|> some id else touching
      if offset < s.span.start.offset then touching
      else leafFrom offset touching (id + 1) rest

/-- The leaf under an offset. A leaf that ends there comes before one that
starts there, so that a cursor right behind a name means that name. Empty
leaves are never under a cursor. -/
def leafAt? (t : Tree) (offset : Int) : Option Nat :=
  leafFrom offset none 0 t.slots.toList

end DotCompletion.Tree
