import DotCompletion.Tree.Query

/-!
# What a template applies to

A template is typed as a name behind an expression and a dot. Usually the
parser reads the two as a qualified name, and the qualifier is the target.
Behind a number the dot belongs to the number, as in `x > 0.if`: the name then
stands alone in a statement of its own, and the target is the number at the end
of the statement before it.
-/

namespace DotCompletion

/-- Why no template applies. -/
inductive NoMatch where
  | notIdentifier
  | noReference
  | notBare
  | noStatement
  | previousNotExpression
  | noTrailingError
  | previousShape
  | noBrokenLiteral
deriving DecidableEq, Repr

/-- The way a target was found. -/
inductive Route where
  | qualifier
  | brokenLiteral
deriving DecidableEq, Repr

/-- The reference that holds the template's name, and the expression in front
of it. -/
structure Resolution where
  route : Route
  reference : Nat
  target : Nat
deriving DecidableEq, Repr

/-- How the search for a target ended. -/
inductive Outcome where
  | noMatch (reason : NoMatch)
  | resolved (route : Route)
deriving DecidableEq, Repr

namespace Outcome

/-- Every outcome, in the order of its number. -/
def all : List Outcome :=
  [.noMatch .notIdentifier, .noMatch .noReference, .noMatch .notBare, .noMatch .noStatement,
   .noMatch .previousNotExpression, .noMatch .noTrailingError, .noMatch .previousShape,
   .noMatch .noBrokenLiteral, .resolved .qualifier, .resolved .brokenLiteral]

/-- The outcome in words. -/
def message : Outcome → String
  | noMatch .notIdentifier => "cursor is not an identifier"
  | noMatch .noReference => "no enclosing reference expression"
  | noMatch .notBare => "reference is not a bare identifier"
  | noMatch .noStatement => "no enclosing expression statement"
  | noMatch .previousNotExpression => "previous statement is not an expression statement"
  | noMatch .noTrailingError => "previous statement has no trailing error"
  | noMatch .previousShape => "previous statement is not an expression followed by an error"
  | noMatch .noBrokenLiteral => "no literal ending in a dot"
  | resolved .qualifier => "qualifier"
  | resolved .brokenLiteral => "broken literal"

/-- A target was found. -/
def isResolved : Outcome → Bool
  | noMatch _ => false
  | resolved _ => true

/-- The outcome of a search. -/
def ofResult : Except NoMatch Resolution → Outcome
  | .ok r => resolved r.route
  | .error reason => noMatch reason

end Outcome

namespace Tree

/-- The expression in front of the dot of a reference. -/
def qualifier? (t : Tree) (reference : Nat) : Option Nat :=
  (t.firstChild? reference).filter t.isExpression

/-- A number that ends in a bare dot. -/
def isBrokenLiteral (t : Tree) (id : Nat) : Bool :=
  t.isA .literal id &&
    ((t.token? id).map fun tok =>
      tok.kind == .floatLiteral && Bytes.endsWith '.' tok.literal).getD false

/-- The last child that is an expression. -/
def lastExpression? (t : Tree) (id : Nat) : Option Nat :=
  (t.children id).reverse.find? t.isExpression

/-- The first number with a bare dot on the way down the right edge of an
expression, down to a number of levels. -/
def brokenLiteralBelow? (t : Tree) : Nat → Nat → Option Nat
  | 0, _ => none
  | levels + 1, id =>
    if t.isBrokenLiteral id then some id
    else (t.lastExpression? id).bind (t.brokenLiteralBelow? levels)

/-- The number with a bare dot at the end of an expression. -/
def brokenLiteral? (t : Tree) (id : Nat) : Option Nat :=
  t.brokenLiteralBelow? t.size id

/-- The reference is a name alone, without a qualifier. -/
def isBare (t : Tree) (reference : Nat) : Bool :=
  ((t.firstChild? reference).map (t.isA .referenceParameterList)).getD false
    && (t.children reference).length == 2

/-- The expression of the statement in front of the one that holds `reference`,
if that statement lacks its semicolon. -/
def previousExpression (t : Tree) (reference : Nat) : Except NoMatch Nat := do
  let some statement := t.ancestor? (· == .exprStmt) reference | throw .noStatement
  let some previous := (t.previousOf? NodeKind.isStatement statement).filter (t.isA .exprStmt)
    | throw .previousNotExpression
  let some last := (t.lastChild? previous).filter (t.isA .error) | throw .noTrailingError
  let some expression := (t.firstChild? previous).filter t.isExpression
    | throw .previousShape
  if t.previous? last = some expression then pure expression else throw .previousShape

/-- The target of a name that stands alone. -/
def resolveBroken (t : Tree) (reference : Nat) : Except NoMatch Resolution := do
  if !t.isBare reference then throw .notBare
  let expression ← t.previousExpression reference
  match t.brokenLiteral? expression with
  | some target => pure ⟨.brokenLiteral, reference, target⟩
  | none => throw .noBrokenLiteral

/-- Find what a template applies to whose name is the leaf `cursor`. -/
def resolve (t : Tree) (cursor : Option Nat) : Except NoMatch Resolution := do
  let some cursor := cursor.filter (t.isA .identifier) | throw .notIdentifier
  let some reference := t.ancestor? (· == .referenceExpr) cursor | throw .noReference
  match t.qualifier? reference with
  | some target => pure ⟨.qualifier, reference, target⟩
  | none => t.resolveBroken reference

end Tree

end DotCompletion
