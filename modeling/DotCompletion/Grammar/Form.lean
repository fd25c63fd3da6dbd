import DotCompletion.Grammar.Look

/-!
# Forms

The grammar is data. A form describes what to read and which nodes to make of
it; a rule is the name of a form, so that forms can refer to each other and to
themselves. Keeping the grammar as data lets every statement about parsing be
settled once for each of the few ways to build a form.

A form works on a frame, the row of nodes made so far for the node under
construction.
-/

namespace DotCompletion

/-- The items of comma-separated lists. -/
inductive ListItem where
  | parameter
  | typeUse
  | expression
  | initializer
  | lambdaParameter
deriving DecidableEq, Repr

/-- The named forms of the grammar. -/
inductive Rule where
  -- files and names
  | compilationUnit
  | unitItems
  | qualifiedName (star : Bool)
  | nameRest (star : Bool)
  -- modifiers
  | modifiers
  | modifierRest
  | annotationUse
  | annotations
  | nested (depth : Nat)
  -- declarations
  | typeDecl
  | header
  | typeParameters
  | typeParameterRest
  | classBody (isEnum : Bool)
  | enumConstants
  | members
  | member
  | methodRest
  | dims
  | parameters
  | parameter
  | unionRest
  -- types
  | typeUse
  | typeName
  | typeArguments (kind : NodeKind)
  -- lists and recovery
  | list (close : TokenKind) (item : ListItem)
  | skipTo (kinds : List TokenKind)
  -- statements
  | statementBlock
  | statements (closers : List TokenKind)
  | block
  | statement
  | exprStmt
  | localVarDecl (semicolon : Bool)
  | variables
  | initializer
  | arrayInit
  | expressionList
  | resources
  | catches
  | switch (kind : NodeKind)
  | switchItems
  | switchCase
  | caseLabels
  | caseLabel
  -- expressions
  | expression
  | lambda
  | lambdaParameter
  | ternary
  | binary (least : Nat)
  | operators (least : Nat)
  | unary
  | castRest
  | suffixes
  | methodRef
  | arguments
  | primary
  | creation
  | arrayLengths
deriving Repr

/-- What an error node that takes tokens complains about. -/
inductive Fault where
  /-- The next token fits nowhere. -/
  | unexpected
  | noExpression
  | noTypeDeclaration
  | noMember
deriving DecidableEq, Repr

namespace Fault

/-- The diagnostic in front of token `t`. -/
def diagnose (t : Token) : Fault → Diagnostic
  | unexpected => ⟨.unexpected t.kind, some t⟩
  | noExpression => ⟨.expectedExpression, some t⟩
  | noTypeDeclaration => ⟨.expectedTypeDeclaration, some t⟩
  | noMember => ⟨.expectedMember, none⟩

end Fault

/-- What a node around others is. -/
inductive Label where
  | plain (kind : NodeKind)
  | fault (cause : Fault)
deriving DecidableEq, Repr

namespace Label

/-- The kind of the node. -/
def kind : Label → NodeKind
  | plain kind => kind
  | fault _ => .error

/-- The diagnostic of the node, in front of token `t`. -/
def diagnose (t : Token) : Label → Option Diagnostic
  | plain _ => none
  | fault cause => some (cause.diagnose t)

end Label

/-- A description of what to read and what to make of it. -/
inductive Form where
  /-- Nothing. -/
  | done
  /-- Take the next token and make a leaf of it. -/
  | take (kind : NodeKind)
  /-- Take nothing and make an empty error node behind the last token taken. -/
  | missing (problem : Problem)
  /-- Cut a single `>` off the next token, if it begins with one. -/
  | splitAngle
  /-- Drop the nodes of a kind from the frame. -/
  | discard (kind : NodeKind)
  | seq (first second : Form)
  | choose (look : Look) (yes no : Form)
  /-- Go on in this frame, then make one node of all of it. -/
  | enclose (label : Label) (body : Form)
  /-- Work in an empty frame, then put its nodes behind those of this frame. -/
  | within (body : Form)
  /-- Work in an empty frame. If no token was taken, forget its nodes and do the
  second form instead. -/
  | orElse (first second : Form)
  /-- If the first form took no token, do the second as well. -/
  | ifStuck (first second : Form)
  /-- Go on with a rule in this frame. -/
  | rule (name : Rule)
deriving Repr

namespace Form

instance : Append Form := ⟨seq⟩

/-- Take a token that is kept as it is. -/
def token : Form := .take .token

/-- Take a token that is a name. -/
def name : Form := .take .identifier

/-- A node of its own made by a rule. -/
def call (r : Rule) : Form := .within (.rule r)

/-- One node of the whole frame. -/
def node (kind : NodeKind) (body : Form) : Form := .enclose (.plain kind) body

/-- A node of its own. -/
def fresh (kind : NodeKind) (body : Form) : Form := .within (node kind body)

/-- A form in front of certain tokens, nothing in front of others. -/
def optional (kinds : List TokenKind) (body : Form) : Form :=
  .choose (.next kinds) body .done

/-- A token that must be there. -/
def expect (kind : TokenKind) : Form :=
  .choose (.next [kind]) token (.missing (.expected kind))

/-- A token that must be there, and what follows it if it is. -/
def expectThen (kind : TokenKind) (body : Form) : Form :=
  .choose (.next [kind]) (token ++ body) (.missing (.expected kind))

/-- A name that must be there. -/
def expectName : Form :=
  .choose (.next TokenKind.identifiers) name (.missing .expectedIdentifier)

/-- A closing angle bracket, which may be the beginning of a longer sign. -/
def expectAngle : Form := .splitAngle ++ expect .greater

/-- An error node that takes one token at least and goes on up to one of
`kinds`. -/
def fault (cause : Fault) (kinds : List TokenKind) : Form :=
  .within (.enclose (.fault cause)
    (.choose (.next [.eof]) .done (token ++ .rule (.skipTo kinds))))

/-- An error node that takes exactly one token. -/
def faultOne (cause : Fault) : Form :=
  .within (.enclose (.fault cause) (.choose (.next [.eof]) .done token))

/-- The next token can stand for a name. -/
def atName : Look := .next TokenKind.identifiers

/-- An expression in round brackets. -/
def condition : Form := expect .lparen ++ call .expression ++ expect .rparen

end Form

end DotCompletion
