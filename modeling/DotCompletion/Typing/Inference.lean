import DotCompletion.Typing.Scope

/-!
# Types of expressions

The type of an expression follows by one step from the types of a few others:
its operands, or the initializer of the variable it names. `Tree.step` is that
step, and `Tree.infer` follows the steps to a given depth. No chain of steps
without a repetition is longer than the number of nodes, so that depth tells the
type of every expression that does not depend on itself.
-/

namespace DotCompletion

/-- The type of an expression in terms of the types of others. -/
structure TypeStep where
  /-- The expressions whose types are needed. -/
  operands : List Nat
  /-- The type, given the types of the operands in the same order. -/
  combine : List (Option StaticType) → Option StaticType

namespace TypeStep

/-- A type that depends on no other. -/
def always (type : Option StaticType) : TypeStep := ⟨[], fun _ => type⟩

/-- A type that depends on that of one other expression. -/
def one (id : Option Nat) (f : StaticType → Option StaticType) : TypeStep :=
  ⟨id.toList, fun types => types.head?.join.bind f⟩

/-- A type that depends on those of two others. -/
def two (a b : Option Nat) (f : Option StaticType → Option StaticType → Option StaticType) :
    TypeStep :=
  match a, b with
  | some a, some b =>
    ⟨[a, b], fun
      | [x, y] => f x y
      | _ => none⟩
  | _, _ => always none

/-- The type of the variable that a declaration is about. A variable
initialized with `null` has none that can be told. -/
def ofBinding : Option Binding → TypeStep
  | some (.known type) => always (some type)
  | some (.ofExpression id) =>
    one (some id) fun type => if type = .null then none else some type
  | _ => always none

end TypeStep

namespace Tree

open StaticType

/-- The type of a literal: the last letter of a number tells its width. -/
def literalType (t : Token) : Option StaticType :=
  match t.kind with
  | .intLiteral =>
    some (if ['l', 'L'].any (Bytes.endsWith · t.literal) then long else int)
  | .floatLiteral =>
    some (if ['f', 'F'].any (Bytes.endsWith · t.literal) then float else double)
  | .charLiteral => some char
  | .stringLiteral | .textBlock => some string
  | .kwTrue | .kwFalse => some boolean
  | .kwNull => some null
  | _ => none

/-- The operator of an expression. -/
def operator? (t : Tree) (id : Nat) : Option TokenKind :=
  ((t.children id).find? (t.isA .token)).bind fun c => (t.token? c).map Token.kind

/-- Two numbers have their common type. -/
def arithmetic : Option StaticType → Option StaticType → Option StaticType
  | some a, some b => if a.isNumeric && b.isNumeric then some (promote a b) else none
  | _, _ => none

/-- A sum with a string is a string. -/
def sum (a b : Option StaticType) : Option StaticType :=
  if a = some string ∨ b = some string then some string else arithmetic a b

/-- Two truth values have one as their result, two numbers a number. -/
def bitwise (a b : Option StaticType) : Option StaticType :=
  match a, b with
  | some x, some y =>
    if x.isBoolean && y.isBoolean then some boolean else arithmetic a b
  | _, _ => none

/-- The type that two branches have in common. -/
def branches (a b : Option StaticType) : Option StaticType :=
  match a, b with
  | some x, some y =>
    if x = y then some x
    else if x = null ∧ !y.isPrimitive then some y
    else if y = null ∧ !x.isPrimitive then some x
    else arithmetic a b
  | _, _ => none

/-- A number becomes an `int` at least. -/
def widened (a : StaticType) : Option StaticType := arithmetic (some a) (some int)

/-- The operators that compare. -/
def comparisons : List TokenKind :=
  [.equal, .notEqual, .less, .greater, .lessEqual, .greaterEqual, .andAnd, .orOr]

/-- The type of an operator applied to one operand. The type of the operand is
asked for in any case, also where it does not matter. -/
def unaryStep (t : Tree) (id : Nat) : TypeStep :=
  match t.operator? id with
  | some .bang => ⟨(t.lastChild? id).toList, fun _ => some boolean⟩
  | some .increment | some .decrement => .one (t.lastChild? id) some
  | _ => .one (t.lastChild? id) widened

/-- The type of an operator applied to two operands. -/
def binaryStep (t : Tree) (id : Nat) : TypeStep :=
  let left := t.firstChild? id
  let right := t.lastChild? id
  match t.operator? id with
  | some .plus => .two left right sum
  | some .shiftLeft | some .shiftRight | some .shiftRightZero => .one left widened
  | some .amp | some .bar | some .caret => .two left right bitwise
  | some op =>
    if comparisons.contains op then .always (some boolean) else .two left right arithmetic
  | none => .two left right arithmetic

/-- The type of a choice between two expressions. -/
def ternaryStep (t : Tree) (id : Nat) : TypeStep :=
  match (t.children id).filter t.isExpression with
  | [_, a, b] => .two (some a) (some b) branches
  | _ => .always none

/-- The type of a new array: one dimension for each opening bracket. -/
def newArrayType? (t : Tree) (id : Nat) : Option StaticType :=
  ((t.firstOfKind? [.typeUse] id).bind t.writtenType?).map fun base =>
    base.arrayOf ((t.children id).filter fun c =>
      (t.token? c).map Token.kind == some .lbracket).length

/-- The class around a node. -/
def enclosingClass? (t : Tree) (id : Nat) : Option StaticType := do
  let decl ← t.ancestor? [NodeKind.classDecl, .enumDecl, .recordDecl, .interfaceDecl].contains id
  let name ← t.firstOfKind? [.identifier] decl
  some ⟨t.text name⟩

/-- The type of a name, qualified or not. Of the members of other objects only
the length of an array is known. -/
def referenceStep (t : Tree) (id : Nat) : TypeStep :=
  match t.firstChild? id, (t.lastChild? id).filter (t.isA .identifier) with
  | some qualifier, some last =>
    let name := t.tokenText (some last)
    if t.isA .referenceParameterList qualifier then .ofBinding (t.nameBinding? id name)
    else if t.isA .thisExpr qualifier && (t.children qualifier).isEmpty then
      .ofBinding (t.ownFieldBinding? id name)
    else if name = Bytes.ofString "length" then
      .one (some qualifier) fun q => if q.isArray then some int else none
    else .always none
  | _, _ => .always none

/-- The type of an expression in terms of the types of others. -/
def step (t : Tree) (id : Nat) : TypeStep :=
  match t.kind? id with
  | some .literal => .always ((t.token? id).bind literalType)
  | some .parenExpr => .one (t.firstOfKind? NodeKind.expressions id) some
  | some .castExpr | some .newExpr =>
    .always ((t.firstOfKind? [.typeUse] id).bind t.writtenType?)
  | some .unaryExpr => t.unaryStep id
  | some .postfixExpr | some .assignExpr => .one (t.firstChild? id) some
  | some .binaryExpr => t.binaryStep id
  | some .instanceofExpr => .always (some boolean)
  | some .ternaryExpr => t.ternaryStep id
  | some .newArrayExpr => .always (t.newArrayType? id)
  | some .arrayAccess =>
    .one (t.firstChild? id) fun a => if a.isArray then some a.element else none
  | some .thisExpr =>
    .always (match t.firstChild? id with
      | some qualifier => some ⟨t.text qualifier⟩
      | none => t.enclosingClass? id)
  | some .classLiteral => .always (some classType)
  | some .referenceExpr => t.referenceStep id
  | _ => .always none

/-- The type of an expression, followed to a depth of steps; `none` if that is
not deep enough. -/
def infer (t : Tree) : Nat → Nat → Option (Option StaticType)
  | 0, _ => none
  | depth + 1, id =>
    let step := t.step id
    (step.operands.mapM (t.infer depth)).map step.combine

/-- The static type of an expression, where it can be told from the tree
alone. -/
def typeOf (t : Tree) (id : Nat) : Option StaticType :=
  (t.infer (t.size + 1) id).join

end Tree

end DotCompletion
