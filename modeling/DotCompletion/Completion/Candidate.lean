import DotCompletion.Completion.Resolution
import DotCompletion.Typing.Inference

/-!
# Candidates

A template need not apply to the target alone: every expression around it that
ends in the same place is a candidate too. In `a + b.var` these are `b` and
`a + b`.
-/

namespace DotCompletion

/-- A place given by three numbers. They need not be those of a position in a
source. -/
structure Place where
  offset : Int
  line : Int
  column : Int
deriving DecidableEq, Repr

namespace Position

/-- The place of a position. -/
def place (p : Position) : Place := ⟨p.offset, p.line, p.column⟩

end Position

/-- One request for completion: the reference being typed, the expression in
front of it, and whether the user asked for completion. -/
structure Site where
  tree : Tree
  resolution : Resolution
  force : Bool

namespace Site

/-- The reference that holds the template's name. -/
def reference (s : Site) : Nat := s.resolution.reference

/-- The expression right in front of the template's dot. -/
def target (s : Site) : Nat := s.resolution.target

/-- The target is a number that swallowed the template's dot. -/
def recovered (s : Site) : Bool := s.resolution.route == .brokenLiteral

/-- The span of a node. -/
def spanOf (s : Site) (id : Nat) : Span := (s.tree.span? id).getD (.ofOffsets 0 0)

/-- The name typed behind the dot. -/
def templateName (s : Site) : Bytes :=
  ((s.tree.lastChild? s.reference).map s.tree.text).getD []

/-- Where a candidate has to end. -/
def stop (s : Site) : Nat :=
  (s.spanOf (if s.recovered then s.target else s.reference)).stop.offset

/-- The part of the source that an expansion of a candidate replaces: up to the
end of the reference. -/
def replaceSpan (s : Site) (id : Nat) : Span :=
  ⟨(s.spanOf id).start, (s.spanOf s.reference).stop⟩

/-- Where the text of every candidate ends. The dot of a recovered number
belongs to the template. -/
def contentEnd (s : Site) : Place :=
  let p := (s.spanOf s.target).stop.place
  if s.recovered then ⟨p.offset - 1, p.line, p.column - 1⟩ else p

/-- The expression is all of an expression statement, but for the reference. -/
def canBeStatement (s : Site) (id : Nat) : Bool :=
  match (s.tree.ancestor? NodeKind.isStatement id).filter (s.tree.isA .exprStmt) with
  | some statement =>
    let top := s.tree.firstOfKind? NodeKind.expressions statement
    top == some id || (top == some s.reference && s.tree.firstChild? s.reference == some id)
  | none => false

end Site

/-- An expression that a template can be applied to. -/
structure Candidate where
  node : Nat
  kind : Option NodeKind
  text : Bytes
  type : Option StaticType
  canBeStatement : Bool
  /-- Where the expression starts. -/
  start : Position
  /-- Where its text ends. -/
  stop : Place
  /-- What an expansion replaces. -/
  replace : Span

namespace Site

/-- An expression as a candidate. -/
def candidate (s : Site) (id : Nat) : Candidate where
  node := id
  kind := s.tree.kind? id
  text := s.tree.textBetween (s.spanOf id).start.offset s.contentEnd.offset
  type := s.tree.typeOf id
  canBeStatement := s.canBeStatement id
  start := (s.spanOf id).start
  stop := s.contentEnd
  replace := s.replaceSpan id

/-- The expressions around the target that end where the template ends, from
the inside out. -/
def outer (s : Site) : List Nat :=
  ((s.tree.ancestors s.target).takeWhile s.tree.isExpression).filter (· != s.reference)
    |>.takeWhile fun id => (s.spanOf id).stop.offset == s.stop

/-- All candidates, the target first. -/
def candidates (s : Site) : List Candidate :=
  (s.target :: s.outer).map s.candidate

end Site

end DotCompletion
