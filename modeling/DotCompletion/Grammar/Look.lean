import DotCompletion.Node.Basic

/-!
# Looking ahead

The grammar decides what comes next by looking at the tokens in front of it,
and sometimes at the node it made last. Looking never changes anything and sees
of a token only its kind and its text, never where it stands.

Some questions need more than two tokens: whether a bracket opens a lambda or a
cast, whether a statement declares a variable. These are answered by skimming:
walking over modifiers and over the name of a type without building nodes.
-/

namespace DotCompletion

namespace Skim

/-- The kind of a token, `eof` behind the last one. -/
def kindAt (tokens : List Token) (i : Nat) : TokenKind :=
  (tokens[i]?.map Token.kind).getD .eof

/-- Where the walk over modifiers and annotations stands. -/
inductive ModifierPlace where
  /-- Between two modifiers. -/
  | between
  /-- Where a name of an annotation may start or go on. -/
  | name
  /-- Behind a part of an annotation's name. -/
  | named
  /-- In the arguments of an annotation, inside `depth` further brackets. -/
  | nested (depth : Nat)

/-- How the walk over modifiers goes on at token `t`, in front of `rest`. It
stops where no modifier or annotation goes on. -/
def ModifierPlace.next? (starts : Token → List Token → Option ModifierPlace)
    (t : Token) (rest : List Token) : ModifierPlace → Option ModifierPlace
  | .between => starts t rest
  | .name =>
    if t.kind.isIdentifier then some .named
    else if t.kind = .lparen then some (.nested 0)
    else starts t rest
  | .named =>
    if t.kind = .dot then some .name
    else if t.kind = .lparen then some (.nested 0)
    else starts t rest
  | .nested depth =>
    if t.kind = .lparen then some (.nested (depth + 1))
    else if t.kind = .rparen then
      match depth with
      | 0 => some .between
      | d + 1 => some (.nested d)
    else some (.nested depth)

/-- The tokens behind modifiers and annotations. -/
def modifiers (starts : Token → List Token → Option ModifierPlace) :
    ModifierPlace → List Token → List Token
  | _, [] => []
  | place, t :: rest =>
    match place.next? starts t rest with
    | some place => modifiers starts place rest
    | none => t :: rest

/-- The modifiers that stand for themselves wherever they stand. -/
def plainModifiers : List TokenKind :=
  [.kwPublic, .kwPrivate, .kwProtected, .kwStatic, .kwFinal, .kwAbstract, .kwNative,
   .kwSynchronized, .kwTransient, .kwVolatile, .kwStrictfp, .kwNonSealed]

/-- What may follow `sealed` where it is a modifier. -/
def afterSealed : List TokenKind :=
  [.kwClass, .kwInterface, .kwAbstract, .kwPublic, .kwPrivate, .kwProtected, .kwStatic,
   .kwFinal, .kwStrictfp]

/-- A token of kind `first` in front of one of kind `second` is a modifier.
The word `default` is one unless it opens a branch of a switch. -/
def isModifier (first second : TokenKind) : Bool :=
  plainModifiers.contains first
    || (first == .kwDefault && second != .colon && second != .arrow)
    || (first == .kwSealed && afterSealed.contains second)

/-- A token of kind `first` in front of one of kind `second` opens an
annotation; `@interface` declares one instead. -/
def isAnnotationStart (first second : TokenKind) : Bool :=
  first == .atSign && second != .kwInterface

/-- Modifiers and annotations in front of any declaration. -/
def anyModifier (t : Token) (rest : List Token) : Option ModifierPlace :=
  if isAnnotationStart t.kind (kindAt rest 0) then some .name
  else if isModifier t.kind (kindAt rest 0) then some .between
  else none

/-- Modifiers and annotations in front of a local variable. -/
def variableModifier (t : Token) (_rest : List Token) : Option ModifierPlace :=
  if t.kind = .atSign then some .name
  else if t.kind = .kwFinal then some .between
  else none

/-- Where the walk over the name of a type stands. -/
inductive TypePlace where
  /-- In front of a part of the name. -/
  | part
  /-- Behind a part of the name. -/
  | behindPart
  /-- In type arguments, inside `depth + 1` angle brackets. -/
  | arguments (depth : Nat)
  /-- Behind type arguments. -/
  | behindArguments
  /-- Behind an opening square bracket. -/
  | bracket
  /-- Behind a pair of square brackets. -/
  | behindBracket

/-- What may stand in type arguments besides names, primitive types and angle
brackets. -/
def argumentSigns : List TokenKind :=
  [.dot, .comma, .question, .kwExtends, .kwSuper, .lbracket, .rbracket, .amp, .atSign]

/-- The outcome of one step of a walk: go on, stop in front of the token, or
find that this is no name of a type. -/
inductive TypeStep where
  | go (place : TypePlace)
  | stop
  | fail

/-- How many angle brackets a token closes. -/
def closing : TokenKind → Nat
  | .greater => 1
  | .shiftRight => 2
  | .shiftRightZero => 3
  | _ => 0

/-- One step of the walk over the name of a type. -/
def TypePlace.step (kind : TokenKind) : TypePlace → TypeStep
  | .part => if kind.isIdentifier then .go .behindPart else .fail
  | .behindPart =>
    if kind = .less then .go (.arguments 0)
    else if kind = .dot then .go .part
    else if kind = .lbracket then .go .bracket
    else .stop
  | .arguments depth =>
    if kind = .less then .go (.arguments (depth + 1))
    else if closing kind ≠ 0 then
      if closing kind ≤ depth then .go (.arguments (depth - closing kind))
      else if closing kind = depth + 1 then .go .behindArguments
      else .fail
    else if kind.isIdentifier || kind.isPrimitive || argumentSigns.contains kind then
      .go (.arguments depth)
    else .fail
  | .behindArguments =>
    if kind = .dot then .go .part
    else if kind = .lbracket then .go .bracket
    else .stop
  | .bracket => if kind = .rbracket then .go .behindBracket else .fail
  | .behindBracket => if kind = .lbracket then .go .bracket else .stop

/-- The tokens behind the name of a type, with its arguments and brackets. -/
def typeName? : TypePlace → List Token → Option (List Token)
  | place, [] =>
    match place.step .eof with
    | .stop => some []
    | _ => none
  | place, t :: rest =>
    match place.step t.kind with
    | .go place => typeName? place rest
    | .stop => some (t :: rest)
    | .fail => none

/-- The tokens behind pairs of square brackets. -/
def brackets : List Token → List Token
  | [] => []
  | [t] => [t]
  | t :: u :: rest =>
    if t.kind = .lbracket ∧ u.kind = .rbracket then brackets rest else t :: u :: rest

/-- The tokens behind a primitive type, or behind the name of a type. After a
primitive type pairs of brackets are taken along if `withBrackets`. -/
def type? (withBrackets : Bool) (tokens : List Token) : Option (List Token) :=
  if (kindAt tokens 0).isPrimitive then
    some (if withBrackets then brackets (tokens.drop 1) else tokens.drop 1)
  else typeName? .part tokens

/-- The bracket that closes `depth + 1` open ones is followed by an arrow. No
semicolon or brace may come before it. -/
def closesBeforeArrow : Nat → List Token → Bool
  | _, [] => false
  | depth, t :: rest =>
    if t.kind = .lparen then closesBeforeArrow (depth + 1) rest
    else if t.kind = .rparen then
      match depth with
      | 0 => kindAt rest 0 == .arrow
      | d + 1 => closesBeforeArrow d rest
    else if [TokenKind.semicolon, .lbrace, .rbrace].contains t.kind then false
    else closesBeforeArrow depth rest

/-- The tokens behind the bracket that closes a cast. Several types may be
joined by `&`. -/
def castTypes? : TypePlace → List Token → Option (List Token)
  | _, [] => none
  | place, t :: rest =>
    match place.step t.kind with
    | .go place => castTypes? place rest
    | .stop =>
      if t.kind = .amp then castTypes? .part rest
      else if t.kind = .rparen then some rest
      else none
    | .fail => none

/-- What may follow the bracket of a cast to a named type. -/
def castOperands : List TokenKind :=
  TokenKind.identifiers ++
  [.intLiteral, .floatLiteral, .charLiteral, .stringLiteral, .textBlock, .kwTrue, .kwFalse,
   .kwNull, .kwThis, .kwSuper, .kwNew, .lparen, .bang, .tilde, .kwSwitch]

/-- The tokens that declare a type, by the kinds of the first two. -/
def isTypeDecl (first second : TokenKind) : Bool :=
  [TokenKind.kwClass, .kwInterface, .kwEnum].contains first
    || (first == .atSign && second == .kwInterface)
    || (first == .kwRecord && second.isIdentifier)

end Skim

/-- A question about many tokens. -/
inductive Ahead where
  /-- A lambda: a name or a bracketed list in front of an arrow. -/
  | lambda
  /-- An opening bracket that starts a cast. -/
  | cast
  /-- The declaration of a local variable. -/
  | localVariable
  /-- The declaration of a local class. -/
  | localClass
  /-- The variable of a loop over a collection, up to the colon. -/
  | enhancedFor
  /-- A type and a variable behind `case`. -/
  | typePattern
  /-- Pairs of brackets in front of `.class`. -/
  | arrayClass
  /-- Pairs of brackets in front of `::`. -/
  | arrayReference
deriving DecidableEq, Repr

namespace Ahead

open Skim

/-- The answer for the tokens ahead. -/
def holds (tokens : List Token) : Ahead → Bool
  | lambda =>
    if (kindAt tokens 0).isIdentifier then kindAt tokens 1 == .arrow
    else kindAt tokens 0 == .lparen && closesBeforeArrow 0 (tokens.drop 1)
  | cast =>
    let behind := tokens.drop 1
    if (kindAt behind 0).isPrimitive then
      kindAt (brackets (behind.drop 1)) 0 == .rparen
    else
      match castTypes? .part behind with
      | some rest => castOperands.contains (kindAt rest 0)
      | none => false
  | localVariable =>
    match type? true (modifiers variableModifier .between tokens) with
    | some rest => (kindAt rest 0).isIdentifier
    | none => false
  | localClass =>
    let rest := modifiers anyModifier .between tokens
    isTypeDecl (kindAt rest 0) (kindAt rest 1) && kindAt rest 0 != .atSign
  | enhancedFor =>
    match type? true (modifiers anyModifier .between tokens) with
    | some rest => (kindAt rest 0).isIdentifier && kindAt rest 1 == .colon
    | none => false
  | typePattern =>
    match type? false (modifiers anyModifier .between tokens) with
    | some rest =>
      (kindAt rest 0).isIdentifier
        && rest.head?.map Token.literal != some (Bytes.ofString "when")
    | none => false
  | arrayClass =>
    let rest := brackets tokens
    kindAt rest 0 == .dot && kindAt rest 1 == .kwClass
  | arrayReference => kindAt (brackets tokens) 0 == .colonColon

end Ahead

/-- A condition on the tokens ahead and on the nodes made so far. -/
inductive Look where
  /-- The next token has one of these kinds. -/
  | next (kinds : List TokenKind)
  /-- The token after the next has one of these kinds. -/
  | second (kinds : List TokenKind)
  /-- The next token has this text. -/
  | spelled (word : String)
  /-- The next two tokens are a modifier, or the first opens an annotation. -/
  | modifier
  /-- The next token opens an annotation. -/
  | annotationStart
  /-- The next two tokens declare a type. -/
  | typeDecl
  /-- The last node made has one of these kinds. -/
  | operand (kinds : List NodeKind)
  | ahead (question : Ahead)
  | both (a b : Look)
  | either (a b : Look)
  | isNot (a : Look)
deriving Repr

namespace Look

open Skim

/-- The condition is met by the nodes made so far and the tokens ahead. -/
def holds (nodes : List Node) (tokens : List Token) : Look → Bool
  | next kinds => kinds.contains (kindAt tokens 0)
  | second kinds => kinds.contains (kindAt tokens 1)
  | spelled word => (tokens.head?.map Token.literal).getD [] == Bytes.ofString word
  | modifier => isModifier (kindAt tokens 0) (kindAt tokens 1)
  | annotationStart => isAnnotationStart (kindAt tokens 0) (kindAt tokens 1)
  | typeDecl => isTypeDecl (kindAt tokens 0) (kindAt tokens 1)
  | operand kinds => (nodes.getLast?.map fun n => kinds.contains n.kind).getD false
  | ahead question => question.holds tokens
  | both a b => a.holds nodes tokens && b.holds nodes tokens
  | either a b => a.holds nodes tokens || b.holds nodes tokens
  | isNot a => !a.holds nodes tokens

end Look

end DotCompletion
