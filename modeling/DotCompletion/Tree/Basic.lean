import DotCompletion.Node.Basic
import DotCompletion.Grammar.Run

/-!
# Trees with addresses

A parsed source as a table. The nodes are numbered from zero in the order in
which a reader meets them, parents before children and children from left to
right. Each row of the table names the neighbours of its node by number: the
parent, the first and the last child, and the siblings on both sides. The rows
are added one by one, and a row learns of its neighbours as they are added.

Here the numbers are natural numbers. Where they have 32 bits and a sign, a table
has at most 2^31 rows, and for a tree with more nodes there is none.
-/

namespace DotCompletion

/-- A row of the table: a node without its children, and its neighbours. -/
structure Slot where
  kind : NodeKind
  span : Span
  token : Option Token
  error : Option Diagnostic
  parent : Option Nat
  first : Option Nat
  last : Option Nat
  previous : Option Nat
  next : Option Nat

namespace Slot

/-- Tell the row which sibling comes behind it or, without a sibling in front of
the new one, tell the parent of its first child. -/
def announce (rows : Array Slot) (parent : Nat) (previous : Option Nat) (id : Nat) :
    Array Slot :=
  match previous with
  | none => rows.modify parent fun s => { s with first := some id }
  | some sibling => rows.modify sibling fun s => { s with next := some id }

end Slot

namespace Node

mutual

/-- Add the rows of a tree to a table. The row of the root knows its parent but
not its siblings. -/
def addTo (parent : Option Nat) (rows : Array Slot) : Node → Array Slot
  | ⟨kind, span, token, error, children⟩ =>
    let id := rows.size
    let rows := rows.push ⟨kind, span, token, error, parent, none, none, none, none⟩
    let (rows, last) := addAllTo id none rows children
    rows.modify id fun s => { s with last }

/-- Add the rows of the children of `parent` that come behind `previous`. What
comes out is the table and the last child. -/
def addAllTo (parent : Nat) (previous : Option Nat) (rows : Array Slot) :
    List Node → Array Slot × Option Nat
  | [] => (rows, previous)
  | n :: rest =>
    let id := rows.size
    let rows := (addTo (some parent) rows n).modify id fun s => { s with previous }
    addAllTo parent (some id) (Slot.announce rows parent previous id) rest

end

end Node

/-- A source and the table of its nodes. -/
structure Tree where
  source : Bytes
  slots : Array Slot

namespace Tree

/-- The table of a tree of nodes; without a root it is empty. -/
def ofNode (source : Bytes) : Option Node → Tree
  | some root => ⟨source, root.addTo none #[]⟩
  | none => ⟨source, #[]⟩

/-- The table of a source. -/
def parse (entry : Entry) (source : Bytes) : Tree :=
  ofNode source (some (entry.parse source))

/-- The number of nodes. -/
def size (t : Tree) : Nat := t.slots.size

/-- The number of the root, if there is one. -/
def root? (t : Tree) : Option Nat :=
  if t.slots.isEmpty then none else some 0

/-- The row with a number. -/
def slot? (t : Tree) (id : Nat) : Option Slot := t.slots[id]?

/-- The kind of a node. -/
def kind? (t : Tree) (id : Nat) : Option NodeKind := (t.slot? id).map Slot.kind

/-- The span of a node. -/
def span? (t : Tree) (id : Nat) : Option Span := (t.slot? id).map Slot.span

/-- The token of a leaf. -/
def token? (t : Tree) (id : Nat) : Option Token := (t.slot? id).bind Slot.token

/-- The diagnostic of an error node. -/
def error? (t : Tree) (id : Nat) : Option Diagnostic := (t.slot? id).bind Slot.error

/-- The parent of a node. -/
def parent? (t : Tree) (id : Nat) : Option Nat := (t.slot? id).bind Slot.parent

/-- The first child. -/
def firstChild? (t : Tree) (id : Nat) : Option Nat := (t.slot? id).bind Slot.first

/-- The last child. -/
def lastChild? (t : Tree) (id : Nat) : Option Nat := (t.slot? id).bind Slot.last

/-- The sibling right in front of a node. -/
def previous? (t : Tree) (id : Nat) : Option Nat := (t.slot? id).bind Slot.previous

/-- The sibling right behind a node. -/
def next? (t : Tree) (id : Nat) : Option Nat := (t.slot? id).bind Slot.next

/-- The numbers met from `start` on by following a link, up to a number of
steps. -/
def follow (link : Nat → Option Nat) : Nat → Option Nat → List Nat
  | 0, _ => []
  | _, none => []
  | steps + 1, some id => id :: follow link steps (link id)

/-- The children of a node from left to right. -/
def children (t : Tree) (id : Nat) : List Nat :=
  follow t.next? t.size (t.firstChild? id)

/-- The source between two offsets; nothing if they do not fit the source. -/
def textBetween (t : Tree) (start stop : Int) : Bytes :=
  if 0 ≤ start ∧ start ≤ stop ∧ stop ≤ t.source.length then
    t.source.slice start.toNat stop.toNat
  else []

/-- The source that a span covers. -/
def textOf (t : Tree) (s : Span) : Bytes :=
  t.textBetween s.start.offset s.stop.offset

/-- The source of a node. -/
def text (t : Tree) (id : Nat) : Bytes :=
  ((t.span? id).map t.textOf).getD []

end Tree

end DotCompletion
