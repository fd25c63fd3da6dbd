import DotCompletion.Tree.Query
import DotCompletion.Typing.StaticType
import DotCompletion.Token.Scan

/-!
# Declarations and scopes

What a name means where it is used. The nodes around the use are searched from
the inside out, so that a local variable hides a parameter and a parameter hides
a field. A declaration gives its type outright, or has none that can be told, or
leaves it to the expression it is initialized with.
-/

namespace DotCompletion

/-- What a declaration says about the type of its variable. -/
inductive Binding where
  | known (type : StaticType)
  | unknown
  /-- The type of an expression, given by its number. -/
  | ofExpression (id : Nat)
deriving DecidableEq, Repr

namespace Tree

/-- The text of a node's token. -/
def tokenText (t : Tree) (id : Option Nat) : Bytes :=
  ((id.bind t.token?).map Token.literal).getD []

/-- The children of a node that may be missing. -/
def childrenOf (t : Tree) (id : Option Nat) : List Nat :=
  (id.map t.children).getD []

/-- Append a token to the text of a type. Two words are kept apart by a space,
as are a question mark and a word, and a space follows a comma. -/
def appendToken (text : Bytes) (t : Token) : Bytes :=
  match t.literal with
  | [] => text
  | b :: _ =>
    let apart :=
      Scan.isWordByte b
        && ((text.getLast?.map fun c => Scan.isWordByte c || c == '?'.toUInt8).getD false)
    text ++ (if apart then [' '.toUInt8] else []) ++ t.literal
      ++ (if t.kind = .comma then [' '.toUInt8] else [])

/-- The type that a node of kind `typeUse` writes, without annotations and with
uniform spaces. -/
def writtenType? (t : Tree) (id : Nat) : Option StaticType :=
  if t.isA .typeUse id then
    let tokens := (t.walk (· != .annotationUse) id).filter (!t.isA .annotationUse ·)
      |>.filterMap t.token?
    let text := tokens.foldl appendToken []
    if text.isEmpty then none else some ⟨text⟩
  else none

/-- The number of pairs of brackets behind the name of a variable. -/
def dimensions (t : Tree) (id : Nat) : Nat :=
  ((t.children id).filter fun c =>
    t.isA .token c && (t.token? c).map Token.kind == some .lbracket).length

/-- The type of a declaration begins with `var`: what its variables are is left
to the expressions they are initialized with. -/
def infersTypes (t : Tree) (decl : Nat) : Bool :=
  let first := ((t.firstOfKind? [.typeUse] decl).bind t.firstChild?).bind t.token?
  first.map Token.kind == some .kwVar

/-- What a declaration of variables says about `name`, if it declares it. -/
def variableBinding? (t : Tree) (decl : Nat) (name : Bytes) : Option Binding :=
  let named := fun v =>
    t.isA .declarator v && t.tokenText (t.firstOfKind? [.identifier] v) == name
  ((t.children decl).find? named).map fun v =>
    if t.infersTypes decl then
      match (t.lastChild? v).filter t.isExpression with
      | some init => .ofExpression init
      | none => .unknown
    else
      match (t.firstOfKind? [.typeUse] decl).bind t.writtenType? with
      | some base => .known (base.arrayOf (t.dimensions v))
      | none => .unknown

/-- What a parameter says about `name`, if that is its name. A parameter with
several types has none that can be told, nor has one declared with `var`. -/
def parameterBinding? (t : Tree) (param : Nat) (name : Bytes) : Option Binding :=
  let children := t.children param
  let ident := children.reverse.find? fun c => !t.isA .token c
  if (ident.map (t.isA .identifier)).getD false && t.tokenText ident == name then
    let variadic := children.any fun c =>
      t.isA .token c && (t.token? c).map Token.kind == some .ellipsis
    match children.filter (t.isA .typeUse) with
    | [type] =>
      match t.writtenType? type with
      | some base =>
        if base = .named "var" then some .unknown
        else some (.known ((base.arrayOf (if variadic then 1 else 0)).arrayOf
          (t.dimensions param)))
      | none => some .unknown
    | _ => some .unknown
  else none

/-- The first parameter of a list with the given name. -/
def listedBinding? (t : Tree) (params : Option Nat) (name : Bytes) : Option Binding :=
  ((t.childrenOf params).filter (t.isA .parameter)).findSome? (t.parameterBinding? · name)

/-- A field of a class, or a component of a record. -/
def fieldBinding? (t : Tree) (body : Nat) (name : Bytes) : Option Binding :=
  ((t.children body).filter (t.isA .fieldDecl)).findSome? (t.variableBinding? · name)
  <|> (((t.parent? body).filter (t.isA .recordDecl)).bind fun record =>
    t.listedBinding? (t.firstOfKind? [.parameters] record) name)

/-- The variable of a test for a type, looked for in a node and all below. -/
def patternBinding? (t : Tree) (root : Nat) (name : Bytes) : Option Binding :=
  (t.walk (fun _ => true) root).findSome? fun id =>
    if t.isA .instanceofExpr id then
      match t.lastChild? id with
      | some last =>
        if t.isA .identifier last && t.tokenText (some last) == name then
          ((t.previous? last).bind t.writtenType?).map .known
        else none
      | none => none
    else none

/-- What a sibling in front of a node says about `name`. -/
def siblingBinding? (t : Tree) (sibling : Nat) (name : Bytes) : Option Binding :=
  match t.kind? sibling with
  | some .localVarDecl => t.variableBinding? sibling name
  | some .parameter => t.parameterBinding? sibling name
  | _ => none

/-- What a parameter of a lambda expression says about `name`. A bare name has
no type that can be told. -/
def lambdaBinding? (t : Tree) (param : Nat) (name : Bytes) : Option Binding :=
  match t.kind? param with
  | some .identifier => if t.tokenText (some param) = name then some .unknown else none
  | some .parameter => t.parameterBinding? param name
  | _ => none

/-- What the node `scope` says about `name` to its child `child`. -/
def bindingIn? (t : Tree) (name : Bytes) (child scope : Nat) : Option Binding :=
  match t.kind? scope with
  | some .block | some .switchCase | some .resourceList =>
    (t.before child).findSome? (t.siblingBinding? · name)
  | some .forStmt =>
    ((t.firstOfKind? [.localVarDecl] scope).filter (· != child)).bind
      (t.variableBinding? · name)
  | some .tryStmt =>
    ((t.firstOfKind? [.resourceList] scope).filter (· != child)).bind fun resources =>
      ((t.children resources).filter (t.isA .localVarDecl)).findSome?
        (t.variableBinding? · name)
  | some .enhancedForStmt | some .catchClause =>
    ((t.firstOfKind? [.parameter] scope).filter (· != child)).bind
      (t.parameterBinding? · name)
  | some .methodDecl | some .constructorDecl | some .recordDecl =>
    t.listedBinding? (t.firstOfKind? [.parameters] scope) name
  | some .lambdaExpr =>
    (t.childrenOf (t.firstOfKind? [.lambdaParameters] scope)).findSome?
      (t.lambdaBinding? · name)
  | some .ifStmt | some .whileStmt | some .binaryExpr | some .ternaryExpr =>
    (t.before child).findSome? (t.patternBinding? · name)
  | some .classBody => t.fieldBinding? scope name
  | _ => none

/-- What a name means at a node. -/
def nameBinding? (t : Tree) (use : Nat) (name : Bytes) : Option Binding :=
  let around := t.ancestors use
  ((use :: around).zip around).findSome? fun (child, scope) => t.bindingIn? name child scope

/-- What a field of the class around a node means. -/
def ownFieldBinding? (t : Tree) (use : Nat) (name : Bytes) : Option Binding :=
  (t.ancestor? (· == .classBody) use).bind (t.fieldBinding? · name)

end Tree

end DotCompletion
