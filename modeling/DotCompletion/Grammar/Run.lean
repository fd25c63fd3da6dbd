import DotCompletion.Grammar.Rules

/-!
# Running the grammar

A cursor stands in front of the tokens that are still to be read. A form is run
on a frame and a cursor and gives the new ones. Rules may refer to themselves,
so a run has a budget of nested rules and ends without a result when it is used
up; the budget that `Entry.parse` grants grows with the length of the source.

No source is refused. Where a token is missing the tree gets an empty error
node, and tokens that fit nowhere end up inside error nodes.
-/

namespace DotCompletion

/-- The tokens still to be read. -/
structure Cursor where
  /-- The tokens ahead. -/
  rest : List Token
  /-- The token shown once all others are read. -/
  eof : Token
  /-- The end of the token read last. -/
  last : Option Position
  /-- The number of tokens read. -/
  taken : Nat

namespace Cursor

/-- In front of the tokens of a source, white space and comments left out. -/
def ofSource (source : Bytes) : Cursor where
  rest := Token.significant source
  eof := .endAt (Position.origin.advance source)
  last := none
  taken := 0

/-- The next token. -/
def next (c : Cursor) : Token := c.rest.head?.getD c.eof

/-- Behind the next token; the end of the input is never passed. -/
def advance (c : Cursor) : Cursor :=
  match c.rest with
  | [] => c
  | t :: rest => { c with rest, last := some t.span.stop, taken := c.taken + 1 }

/-- The place behind the token read last, or in front of the first one. -/
def behind (c : Cursor) : Position := c.last.getD c.next.span.start

/-- The signs that begin with `>` and have more to them. -/
def splittable : List TokenKind :=
  [.shiftRight, .shiftRightZero, .greaterEqual, .shiftRightAssign, .shiftRightZeroAssign]

/-- The `>` at the beginning of a token. -/
def angleOf (t : Token) : Token :=
  ⟨.greater, ⟨t.span.start, t.span.start.right⟩, Bytes.ofString ">"⟩

/-- What is left of a token behind its first byte. -/
def behindAngle (t : Token) : Token :=
  ⟨.ofSign (t.literal.drop 1), ⟨t.span.start.right, t.span.stop⟩, t.literal.drop 1⟩

/-- Cut a single `>` off the next token, so that nested type arguments can
close. -/
def splitAngle (c : Cursor) : Cursor :=
  match c.rest with
  | [] => c
  | t :: rest =>
    if splittable.contains t.kind then { c with rest := angleOf t :: behindAngle t :: rest }
    else c

end Cursor

/-- The nodes made so far for the node under construction. -/
abbrev Frame := List Node

namespace Form

/-- Run a form, with `goto` to run the rules it refers to. -/
def perform (goto : Rule → Frame → Cursor → Option (Frame × Cursor)) :
    Form → Frame → Cursor → Option (Frame × Cursor)
  | done, frame, c => some (frame, c)
  | take kind, frame, c => some (frame ++ [.leaf kind c.next], c.advance)
  | missing problem, frame, c =>
    some (frame ++ [.missing c.behind ⟨problem, some c.next⟩], c)
  | splitAngle, frame, c => some (frame, c.splitAngle)
  | discard kind, frame, c => some (frame.filter fun n => n.kind != kind, c)
  | seq first second, frame, c =>
    match perform goto first frame c with
    | some (frame, c) => perform goto second frame c
    | none => none
  | choose look yes no, frame, c =>
    if look.holds frame c.rest then perform goto yes frame c else perform goto no frame c
  | enclose label body, frame, c =>
    match perform goto body frame c with
    | some (children, behind) =>
      some ([.around label.kind (label.diagnose c.next) c.next.span.start children], behind)
    | none => none
  | within body, frame, c =>
    match perform goto body [] c with
    | some (nodes, behind) => some (frame ++ nodes, behind)
    | none => none
  | orElse first second, frame, c =>
    match perform goto first [] c with
    | some (nodes, behind) =>
      if behind.taken = c.taken then perform goto second frame behind
      else some (frame ++ nodes, behind)
    | none => none
  | ifStuck first second, frame, c =>
    match perform goto first frame c with
    | some (frame, behind) =>
      if behind.taken = c.taken then perform goto second frame behind
      else some (frame, behind)
    | none => none
  | rule name, frame, c => goto name frame c

end Form

namespace Rule

/-- Run a rule with a budget of nested rules. -/
def run : Nat → Rule → Frame → Cursor → Option (Frame × Cursor)
  | 0, _, _, _ => none
  | budget + 1, r, frame, c => r.form.perform (run budget) frame c

end Rule

/-- What a source is read as. -/
inductive Entry where
  /-- A file. -/
  | compilationUnit
  /-- Statements without braces around them. -/
  | statements
  /-- A single expression; what follows it is not read. -/
  | expression
deriving DecidableEq, Repr

namespace Entry

/-- The rule to start with. -/
def rule : Entry → Rule
  | compilationUnit => .compilationUnit
  | statements => .statementBlock
  | expression => .expression

/-- The nested rules granted for a source: each byte can be met by each rule
once. -/
def budget (source : Bytes) : Nat := 64 * (source.length + 2)

/-- The result of reading a source: the nodes made, and where reading ended. -/
def read? (entry : Entry) (source : Bytes) : Option (Frame × Cursor) :=
  entry.rule.run (budget source) [] (Cursor.ofSource source)

/-- The tree of a source. -/
def parse (entry : Entry) (source : Bytes) : Node :=
  match entry.read? source with
  | some (node :: _, _) => node
  | _ => .missing .origin ⟨.expectedExpression, none⟩

end Entry

end DotCompletion
