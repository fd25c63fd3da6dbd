/-!
# Kinds of nodes

What a part of a parsed source is. Two families matter to readers of a tree:
expressions and statements.
-/

namespace DotCompletion

/-- The kind of a node. -/
inductive NodeKind where
  -- an error, and the leaves
  | error | token | identifier
  -- files
  | compilationUnit | packageDecl | importDecl
  -- type declarations
  | classDecl | interfaceDecl | enumDecl | recordDecl | annotationDecl | classBody
  | enumConstant
  -- members
  | fieldDecl | methodDecl | constructorDecl | initializer
  -- modifiers and types
  | modifiers | annotationUse | typeUse | typeArguments | referenceParameterList
  | typeParameters | parameters | parameter | throwsList
  -- statements and their parts
  | block | emptyStmt | exprStmt | localVarDecl | declarator | localClassDecl | ifStmt | forStmt
  | enhancedForStmt | whileStmt | doStmt | switchStmt | switchCase | returnStmt | breakStmt
  | continueStmt | throwStmt | tryStmt | resourceList | catchClause | finallyClause
  | synchronizedStmt | assertStmt | labeledStmt | yieldStmt
  -- expressions
  | assignExpr | ternaryExpr | binaryExpr | unaryExpr | postfixExpr | castExpr | instanceofExpr
  | callExpr | referenceExpr | methodRef | arrayAccess | newExpr | newArrayExpr | arrayInit
  | lambdaExpr | parenExpr | literal | thisExpr | superExpr | classLiteral | switchExpr
  -- parts of expressions
  | arguments | lambdaParameters
deriving DecidableEq, Repr, Inhabited

namespace NodeKind

/-- Every kind, in the order of its number. -/
def all : List NodeKind :=
  [.error, .token, .identifier, .compilationUnit, .packageDecl, .importDecl, .classDecl,
   .interfaceDecl, .enumDecl, .recordDecl, .annotationDecl, .classBody, .enumConstant,
   .fieldDecl, .methodDecl, .constructorDecl, .initializer, .modifiers, .annotationUse,
   .typeUse, .typeArguments, .referenceParameterList, .typeParameters, .parameters, .parameter,
   .throwsList, .block, .emptyStmt, .exprStmt, .localVarDecl, .declarator, .localClassDecl,
   .ifStmt, .forStmt, .enhancedForStmt, .whileStmt, .doStmt, .switchStmt, .switchCase,
   .returnStmt, .breakStmt, .continueStmt, .throwStmt, .tryStmt, .resourceList, .catchClause,
   .finallyClause, .synchronizedStmt, .assertStmt, .labeledStmt, .yieldStmt, .assignExpr,
   .ternaryExpr, .binaryExpr, .unaryExpr, .postfixExpr, .castExpr, .instanceofExpr, .callExpr,
   .referenceExpr, .methodRef, .arrayAccess, .newExpr, .newArrayExpr, .arrayInit, .lambdaExpr,
   .parenExpr, .literal, .thisExpr, .superExpr, .classLiteral, .switchExpr, .arguments,
   .lambdaParameters]

/-- The kind with a given number. -/
def ofNat? (n : Nat) : Option NodeKind := all[n]?

/-- The number of a kind. -/
def number (k : NodeKind) : Nat := all.idxOf k

/-- The name of a kind in listings. -/
def name : NodeKind → String
  | error => "Error"
  | token => "Token"
  | identifier => "Identifier"
  | compilationUnit => "CompilationUnit"
  | packageDecl => "PackageDecl"
  | importDecl => "ImportDecl"
  | classDecl => "ClassDecl"
  | interfaceDecl => "InterfaceDecl"
  | enumDecl => "EnumDecl"
  | recordDecl => "RecordDecl"
  | annotationDecl => "AnnotationDecl"
  | classBody => "ClassBody"
  | enumConstant => "EnumConstant"
  | fieldDecl => "FieldDecl"
  | methodDecl => "MethodDecl"
  | constructorDecl => "ConstructorDecl"
  | initializer => "Initializer"
  | modifiers => "Modifiers"
  | annotationUse => "Annotation"
  | typeUse => "Type"
  | typeArguments => "TypeArguments"
  | referenceParameterList => "ReferenceParameterList"
  | typeParameters => "TypeParameters"
  | parameters => "Parameters"
  | parameter => "Parameter"
  | throwsList => "ThrowsList"
  | block => "Block"
  | emptyStmt => "EmptyStmt"
  | exprStmt => "ExprStmt"
  | localVarDecl => "LocalVarDecl"
  | declarator => "Variable"
  | localClassDecl => "LocalClassDecl"
  | ifStmt => "IfStmt"
  | forStmt => "ForStmt"
  | enhancedForStmt => "EnhancedForStmt"
  | whileStmt => "WhileStmt"
  | doStmt => "DoStmt"
  | switchStmt => "SwitchStmt"
  | switchCase => "SwitchCase"
  | returnStmt => "ReturnStmt"
  | breakStmt => "BreakStmt"
  | continueStmt => "ContinueStmt"
  | throwStmt => "ThrowStmt"
  | tryStmt => "TryStmt"
  | resourceList => "ResourceList"
  | catchClause => "CatchClause"
  | finallyClause => "FinallyClause"
  | synchronizedStmt => "SynchronizedStmt"
  | assertStmt => "AssertStmt"
  | labeledStmt => "LabeledStmt"
  | yieldStmt => "YieldStmt"
  | assignExpr => "AssignExpr"
  | ternaryExpr => "TernaryExpr"
  | binaryExpr => "BinaryExpr"
  | unaryExpr => "UnaryExpr"
  | postfixExpr => "PostfixExpr"
  | castExpr => "CastExpr"
  | instanceofExpr => "InstanceofExpr"
  | callExpr => "CallExpr"
  | referenceExpr => "ReferenceExpr"
  | methodRef => "MethodRef"
  | arrayAccess => "ArrayAccess"
  | newExpr => "NewExpr"
  | newArrayExpr => "NewArrayExpr"
  | arrayInit => "ArrayInit"
  | lambdaExpr => "LambdaExpr"
  | parenExpr => "ParenExpr"
  | literal => "Literal"
  | thisExpr => "This"
  | superExpr => "Super"
  | classLiteral => "ClassLiteral"
  | switchExpr => "SwitchExpr"
  | arguments => "Arguments"
  | lambdaParameters => "LambdaParameters"

/-- The kind with a given name. -/
def ofName? (name : String) : Option NodeKind :=
  all.find? fun k => k.name == name

/-- The kinds of expressions. -/
def expressions : List NodeKind :=
  [.assignExpr, .ternaryExpr, .binaryExpr, .unaryExpr, .postfixExpr, .castExpr, .instanceofExpr,
   .callExpr, .referenceExpr, .methodRef, .arrayAccess, .newExpr, .newArrayExpr, .arrayInit,
   .lambdaExpr, .parenExpr, .literal, .thisExpr, .superExpr, .classLiteral, .switchExpr]

/-- The kinds of statements. -/
def statements : List NodeKind :=
  [.block, .emptyStmt, .exprStmt, .localVarDecl, .localClassDecl, .ifStmt, .forStmt,
   .enhancedForStmt, .whileStmt, .doStmt, .switchStmt, .returnStmt, .breakStmt, .continueStmt,
   .throwStmt, .tryStmt, .synchronizedStmt, .assertStmt, .labeledStmt, .yieldStmt]

/-- Nodes of this kind are expressions. -/
def isExpression (k : NodeKind) : Bool := expressions.contains k

/-- Nodes of this kind are statements. -/
def isStatement (k : NodeKind) : Bool := statements.contains k

end NodeKind

end DotCompletion
