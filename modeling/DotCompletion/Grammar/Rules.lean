import DotCompletion.Grammar.Form

/-!
# The grammar

The form of every rule. A rule that makes a node is meant for an empty frame,
unless it continues an expression: there the frame holds the operand read so
far. Loops are rules that end by referring to themselves.
-/

namespace DotCompletion

open Form

namespace Grammar

/-- `package` and a name, behind modifiers. -/
def packageDecl : Form :=
  node .packageDecl (token ++ .rule (.qualifiedName false) ++ expect .semicolon)

/-- `import`, perhaps `static`, and a name that may end in a star. -/
def importDecl : Form :=
  fresh .importDecl
    (token ++ optional [.kwStatic] token ++ .rule (.qualifiedName true) ++ expect .semicolon)

/-- The tokens at which a broken file goes on. -/
def unitRecovery : List TokenKind :=
  [.kwClass, .kwInterface, .kwEnum, .kwRecord, .atSign, .kwPublic, .kwAbstract, .kwFinal,
   .kwImport]

/-- One item of a file. -/
def unitItem : Form :=
  .choose (.next [.kwPackage]) (.within packageDecl)
  (.choose (.next [.kwImport]) importDecl
  (.choose (.next [.semicolon]) token
  (.within (.rule .modifiers ++
    .choose .typeDecl (.rule .typeDecl)
    (.choose (.next [.kwPackage]) packageDecl
    (fault .noTypeDeclaration unitRecovery))))))

/-- The declaration of a type of a given kind, behind its modifiers. -/
def declaration (kind : NodeKind) : Form :=
  node kind
    ((if kind = .annotationDecl then token else .done)
      ++ token ++ expectName
      ++ optional [.less] (call .typeParameters)
      ++ (if kind = .recordDecl then optional [.lparen] (call .parameters) else .done)
      ++ .rule .header
      ++ call (.classBody (kind = .enumDecl)))

/-- A constant of an enumeration. -/
def enumConstant : Form :=
  fresh .enumConstant
    (.rule .modifiers ++ expectName
      ++ optional [.lparen] (call .arguments)
      ++ optional [.lbrace] (call (.classBody false)))

/-- A name in front of a token of the given kind. -/
def nameBefore (kind : TokenKind) : Look :=
  .both atName (.second [kind])

/-- What can begin the type of a member. -/
def memberType : List TokenKind :=
  TokenKind.identifiers ++ TokenKind.primitives ++ [.kwVoid, .atSign]

/-- A field or a method, behind modifiers and type parameters. Type parameters
mean nothing for a field. -/
def typedMember : Form :=
  call .typeUse ++
  .choose (nameBefore .lparen) (node .methodDecl (name ++ .rule .methodRest))
    (.discard .typeParameters ++ node .fieldDecl (.rule .variables ++ expect .semicolon))

/-- A member that begins with neither a type nor a name. -/
def brokenMember : Form :=
  .enclose (.fault .noMember)
    (.choose (.next [.rbrace]) .done (fault .unexpected [.semicolon, .rbrace]))

/-- A variable with its type, as in a loop or behind `case`. -/
def boundVariable : Form :=
  fresh .parameter (.rule .modifiers ++ call .typeUse ++ name)

/-- The initial part of a `for` statement that counts. -/
def forInit : Form :=
  .choose (.next [.semicolon]) .done
    (.choose (.ahead .localVariable) (call (.localVarDecl false)) (.rule .expressionList))

/-- A `for` statement of either sort; which one it is shows behind the bracket. -/
def forStmt : Form :=
  token ++ expect .lparen ++
  .choose (.ahead .enhancedFor)
    (node .enhancedForStmt
      (boundVariable ++ token ++ call .expression ++ expect .rparen ++ call .statement))
    (node .forStmt
      (forInit ++ expect .semicolon
        ++ .choose (.next [.semicolon]) .done (call .expression)
        ++ expect .semicolon
        ++ .choose (.next [.rparen]) .done (.rule .expressionList)
        ++ expect .rparen ++ call .statement))

/-- A keyword with an optional value. -/
def keywordStmt (kind : NodeKind) : Form :=
  node kind
    (token ++ .choose (.next [.semicolon, .rbrace]) .done (call .expression)
      ++ expect .semicolon)

/-- A keyword with an optional label. -/
def jumpStmt (kind : NodeKind) : Form :=
  node kind (token ++ optional TokenKind.identifiers name ++ expect .semicolon)

/-- A `try` statement. -/
def tryStmt : Form :=
  node .tryStmt
    (token
      ++ optional [.lparen]
        (fresh .resourceList (token ++ .rule .resources ++ expect .rparen))
      ++ call .block
      ++ .rule .catches
      ++ optional [.kwFinally] (fresh .finallyClause (token ++ call .block)))

/-- The signs behind which `yield` is a name. -/
def afterYieldName : List TokenKind :=
  [.assign, .dot, .lbracket, .semicolon, .increment, .decrement, .plusAssign, .minusAssign]

/-- A statement that no keyword introduces. -/
def plainStatement : Form :=
  .choose (nameBefore .colon) (node .labeledStmt (name ++ token ++ call .statement))
  (.choose (.ahead .localClass)
    (node .localClassDecl (.within (.rule .modifiers ++ .rule .typeDecl)))
  (.choose (.ahead .localVariable) (.rule (.localVarDecl true))
    (.rule .exprStmt)))

/-- The assignment operators. -/
def assignments : List TokenKind :=
  [.assign, .plusAssign, .minusAssign, .starAssign, .slashAssign, .percentAssign, .andAssign,
   .orAssign, .xorAssign, .shiftLeftAssign, .shiftRightAssign, .shiftRightZeroAssign]

/-- The binary operators, from those that bind loosest. `instanceof` binds like
the comparisons and is treated apart. -/
def binaryLevels : List (Nat × List TokenKind) :=
  [(1, [.orOr]), (2, [.andAnd]), (3, [.bar]), (4, [.caret]), (5, [.amp]),
   (6, [.equal, .notEqual]), (7, [.less, .greater, .lessEqual, .greaterEqual]),
   (8, [.shiftLeft, .shiftRight, .shiftRightZero]), (9, [.plus, .minus]),
   (10, [.star, .slash, .percent])]

/-- The level of `instanceof`. -/
def instanceofLevel : Nat := 7

/-- An operator of at least the given level, applied to the operand in the
frame; then further ones. -/
def binaryOperators (least : Nat) : List (Nat × List TokenKind) → Form
  | [] => .done
  | (level, kinds) :: levels =>
    if least ≤ level then
      .choose (.next kinds)
        (node .binaryExpr (token ++ call (.binary (level + 1))) ++ .rule (.operators least))
        (binaryOperators least levels)
    else binaryOperators least levels

/-- The test for a type, perhaps with a variable. -/
def instanceofExpr : Form :=
  node .instanceofExpr
    (token ++ optional [.kwFinal] token ++ call .typeUse ++ optional TokenKind.identifiers name)

/-- The operators in front of an operand. -/
def unaryOperators : List TokenKind :=
  [.plus, .minus, .increment, .decrement, .bang, .tilde]

/-- A lambda if one is ahead, else the given rule. -/
def lambdaOr (r : Rule) : Form :=
  .choose (.ahead .lambda) (call .lambda) (call r)

/-- `new` or a name behind `::`. -/
def referenceName : Form :=
  .choose (.next [.kwNew]) token expectName

/-- The part behind a dot. -/
def dotSuffix : Form :=
  token ++
  .choose (.next [.kwClass]) (node .classLiteral token)
  (.choose (.next [.kwThis]) (node .thisExpr token)
  (.choose (.next [.kwSuper]) (node .superExpr token)
  (.choose (.next [.kwNew]) (.rule .creation)
  (node .referenceExpr
    (.choose (.next [.less])
      (call (.typeArguments .referenceParameterList))
      (fresh .referenceParameterList .done)
    ++ expectName)))))

/-- Pairs of square brackets behind an operand: the operand is the name of an
array type, or the expression ends before them. -/
def arrayTypeSuffix : Form :=
  .choose (.ahead .arrayClass)
    (node .classLiteral (.rule .dims ++ token ++ token) ++ .rule .suffixes)
  (.choose (.ahead .arrayReference)
    (node .methodRef (.rule .dims ++ token ++ referenceName) ++ .rule .suffixes)
    .done)

/-- The kinds of literals. -/
def literals : List TokenKind :=
  [.intLiteral, .floatLiteral, .charLiteral, .stringLiteral, .textBlock, .kwTrue, .kwFalse,
   .kwNull]

/-- Where an expression is missing, rather than broken. -/
def expressionEnds : List TokenKind :=
  [.semicolon, .comma, .colon, .rparen, .rbracket, .rbrace, .eof]

/-- A primitive type as an operand: its class, or a reference to its
constructor. -/
def primitiveOperand : Form :=
  call .typeUse ++
  .choose (.next [.colonColon]) (.rule .methodRef)
    (node .classLiteral (expect .dot ++ expect .kwClass))

/-- The type behind `new`, without brackets. -/
def createdType : Form :=
  fresh .typeUse
    (.rule .annotations ++
    .choose (.next TokenKind.primitives) token
    (.choose atName (.rule .typeName) (.missing .expectedType)))

/-- The rule of an item of a list. -/
def itemRule : ListItem → Rule
  | .parameter => .parameter
  | .typeUse => .typeUse
  | .expression => .expression
  | .initializer => .initializer
  | .lambdaParameter => .lambdaParameter

/-- Where a list gives up on a broken item. -/
def listEnds : List TokenKind := [.semicolon, .lbrace, .rbrace]

end Grammar

open Grammar

/-- The form of a rule. -/
def Rule.form : Rule → Form
  -- files and names
  | .compilationUnit => node .compilationUnit (.rule .unitItems)
  | .unitItems =>
    .choose (.next [.eof]) .done
      (.ifStuck unitItem (faultOne .unexpected) ++ .rule .unitItems)
  | .qualifiedName star =>
    .choose atName (name ++ .rule (.nameRest star)) (.missing .expectedIdentifier)
  | .nameRest star =>
    optional [.dot]
      (.choose (.second TokenKind.identifiers) (token ++ name ++ .rule (.nameRest star))
      (.choose (.second (if star then [.star] else [])) (token ++ token)
        (token ++ .missing .expectedIdentifier)))
  -- modifiers
  | .modifiers =>
    .choose (.either .annotationStart .modifier) (fresh .modifiers (.rule .modifierRest)) .done
  | .modifierRest =>
    .choose .annotationStart (call .annotationUse ++ .rule .modifierRest)
    (.choose .modifier (token ++ .rule .modifierRest) .done)
  | .annotationUse =>
    node .annotationUse
      (token ++ .rule (.qualifiedName false) ++ optional [.lparen] (token ++ .rule (.nested 0)))
  | .annotations => optional [.atSign] (call .annotationUse ++ .rule .annotations)
  | .nested depth =>
    .choose (.next [.eof]) .done
    (.choose (.next [.lparen]) (token ++ .rule (.nested (depth + 1)))
    (.choose (.next [.rparen])
      (token ++ match depth with
        | 0 => .done
        | d + 1 => .rule (.nested d))
      (token ++ .rule (.nested depth))))
  -- declarations
  | .typeDecl =>
    .choose (.next [.kwInterface]) (declaration .interfaceDecl)
    (.choose (.next [.kwEnum]) (declaration .enumDecl)
    (.choose (.next [.kwRecord]) (declaration .recordDecl)
    (.choose (.next [.atSign]) (declaration .annotationDecl)
      (declaration .classDecl))))
  | .header =>
    .choose (.next [.lbrace, .eof]) .done
    (.choose (.next [.kwExtends, .kwImplements, .kwPermits, .comma]) (token ++ .rule .header)
    (.choose (.either atName (.next [.atSign])) (call .typeUse ++ .rule .header)
    (.choose (.next [.semicolon, .rbrace]) .done
      (fault .unexpected [.lbrace, .semicolon, .rbrace] ++ .rule .header))))
  | .typeParameters =>
    node .typeParameters (token ++ .rule .typeParameterRest ++ expectAngle)
  | .typeParameterRest =>
    .splitAngle ++
    .choose (.next [.greater, .eof]) .done
    (.choose (.either atName (.next [.atSign])) (call .typeUse ++ .rule .typeParameterRest)
    (optional [.kwExtends, .comma, .amp] (token ++ .rule .typeParameterRest)))
  | .classBody isEnum =>
    node .classBody
      (expectThen .lbrace
        ((if isEnum then .rule .enumConstants else .done)
          ++ .rule .members ++ expect .rbrace))
  | .enumConstants =>
    .choose (.either atName (.next [.atSign]))
      (enumConstant ++
        .choose (.next [.comma]) (token ++ .rule .enumConstants) (optional [.semicolon] token))
      (optional [.semicolon] token)
  | .members =>
    .choose (.next [.rbrace, .eof]) .done
      (.ifStuck (call .member) (faultOne .unexpected) ++ .rule .members)
  | .member =>
    .choose (.next [.semicolon]) token
    (.rule .modifiers ++
    .choose (.next [.lbrace]) (node .initializer (call .block))
    (.choose .typeDecl (.rule .typeDecl)
    (optional [.less] (call .typeParameters) ++
    .choose (nameBefore .lparen) (node .constructorDecl (name ++ .rule .methodRest))
    (.choose (nameBefore .lbrace)
      (.discard .typeParameters ++ node .constructorDecl (name ++ call .block))
    (.choose (.next memberType) typedMember brokenMember)))))
  | .methodRest =>
    call .parameters ++ .rule .dims
      ++ optional [.kwThrows] (fresh .throwsList (token ++ .rule (.list .lbrace .typeUse)))
      ++ optional [.kwDefault] (token ++ call .initializer)
      ++ .choose (.next [.lbrace]) (call .block) (expect .semicolon)
  | .dims =>
    .choose (.both (.next [.lbracket]) (.second [.rbracket]))
      (token ++ token ++ .rule .dims) .done
  | .parameters =>
    node .parameters (expect .lparen ++ .rule (.list .rparen .parameter) ++ expect .rparen)
  | .parameter =>
    node .parameter
      (.rule .modifiers ++ call .typeUse ++ .rule .unionRest
        ++ optional [.ellipsis] token
        ++ .choose (.next [.kwThis]) token expectName
        ++ .rule .dims)
  | .unionRest => optional [.bar] (token ++ call .typeUse ++ .rule .unionRest)
  -- types
  | .typeUse =>
    node .typeUse
      (.rule .annotations ++
      .choose (.next (TokenKind.primitives ++ [.kwVoid, .kwVar])) (token ++ .rule .dims)
      (.choose atName (.rule .typeName ++ .rule .dims)
      (.choose (.next [.question])
        (token ++ optional [.kwExtends, .kwSuper] (token ++ call .typeUse))
        (.missing .expectedType))))
  | .typeName =>
    name ++ optional [.less] (call (.typeArguments .typeArguments)) ++
    .choose (.both (.next [.dot]) (.second TokenKind.identifiers))
      (token ++ .rule .typeName) .done
  | .typeArguments kind =>
    node kind
      (token ++ .splitAngle
        ++ .choose (.next [.greater]) .done (.rule (.list .greater .typeUse))
        ++ expectAngle)
  -- lists and recovery
  | .list close item =>
    .choose (.next [close, .eof]) .done
      (.ifStuck (call (itemRule item))
        (.choose (.next listEnds) .done
          (fault .unexpected ([.comma, close] ++ listEnds)))
      ++ optional [.comma] (token ++ .rule (.list close item)))
  | .skipTo kinds =>
    .choose (.next (.eof :: kinds)) .done (token ++ .rule (.skipTo kinds))
  -- statements
  | .statementBlock => node .block (.rule (.statements []))
  | .statements closers =>
    .choose (.next (.eof :: closers)) .done
      (.orElse (.rule .statement) (faultOne .unexpected) ++ .rule (.statements closers))
  | .block =>
    node .block (expect .lbrace ++ .rule (.statements [.rbrace]) ++ expect .rbrace)
  | .statement =>
    .choose (.next [.lbrace]) (.rule .block)
    (.choose (.next [.semicolon]) (node .emptyStmt token)
    (.choose (.next [.kwIf])
      (node .ifStmt
        (token ++ condition ++ call .statement
          ++ optional [.kwElse] (token ++ call .statement)))
    (.choose (.next [.kwFor]) forStmt
    (.choose (.next [.kwWhile]) (node .whileStmt (token ++ condition ++ call .statement))
    (.choose (.next [.kwDo])
      (node .doStmt
        (token ++ call .statement ++ expectThen .kwWhile condition ++ expect .semicolon))
    (.choose (.next [.kwSwitch]) (.rule (.switch .switchStmt))
    (.choose (.next [.kwReturn]) (keywordStmt .returnStmt)
    (.choose (.next [.kwThrow]) (keywordStmt .throwStmt)
    (.choose (.next [.kwBreak]) (jumpStmt .breakStmt)
    (.choose (.next [.kwContinue]) (jumpStmt .continueStmt)
    (.choose (.next [.kwTry]) tryStmt
    (.choose (.next [.kwAssert])
      (node .assertStmt
        (token ++ call .expression ++ optional [.colon] (token ++ call .expression)
          ++ expect .semicolon))
    (.choose (.both (.next [.kwSynchronized]) (.second [.lparen]))
      (node .synchronizedStmt (token ++ condition ++ call .block))
    (.choose (.both (.next [.kwYield]) (.isNot (.second afterYieldName)))
      (keywordStmt .yieldStmt)
    (.choose (.next [.rbrace]) (.missing .expectedStatement)
    (.choose (.next [.rparen, .rbracket]) (faultOne .unexpected)
      plainStatement))))))))))))))))
  | .exprStmt => node .exprStmt (call .expression ++ expect .semicolon)
  | .localVarDecl semicolon =>
    node .localVarDecl
      (.rule .modifiers ++ call .typeUse ++ .rule .variables
        ++ (if semicolon then expect .semicolon else .done))
  | .variables =>
    fresh .declarator
      (expectName ++ .rule .dims ++ optional [.assign] (token ++ call .initializer))
    ++ optional [.comma] (token ++ .rule .variables)
  | .initializer =>
    .choose (.next [.lbrace]) (.rule .arrayInit) (.rule .expression)
  | .arrayInit =>
    node .arrayInit (token ++ .rule (.list .rbrace .initializer) ++ expect .rbrace)
  | .expressionList =>
    call .expression ++ optional [.comma] (token ++ .rule .expressionList)
  | .resources =>
    .choose (.next [.rparen, .eof]) .done
      (.ifStuck
        (.choose (.ahead .localVariable) (call (.localVarDecl false)) (call .expression)
          ++ optional [.semicolon] (token ++ .rule .resources))
        (.missing .expectedResource))
  | .catches =>
    optional [.kwCatch]
      (fresh .catchClause
        (token ++ expect .lparen ++ call .parameter ++ expect .rparen ++ call .block)
      ++ .rule .catches)
  | .switch kind =>
    node kind
      (token ++ condition ++ expectThen .lbrace (.rule .switchItems ++ expect .rbrace))
  | .switchItems =>
    .choose (.next [.rbrace, .eof]) .done
      (.ifStuck
        (.choose (.next [.kwCase, .kwDefault]) (call .switchCase) (call .statement))
        (faultOne .unexpected)
      ++ .rule .switchItems)
  | .switchCase =>
    node .switchCase
      (.choose (.next [.kwDefault]) token
        (token ++ .rule .caseLabels
          ++ .choose (.both atName (.spelled "when")) (name ++ call .expression) .done)
      ++ .choose (.next [.arrow])
        (token ++
          .choose (.next [.lbrace]) (call .block)
          (.choose (.next [.kwThrow]) (call .statement) (call .exprStmt)))
        (expect .colon ++ .rule (.statements [.kwCase, .kwDefault, .rbrace])))
  | .caseLabels =>
    call .caseLabel ++ optional [.comma] (token ++ .rule .caseLabels)
  | .caseLabel =>
    .choose (.next [.kwDefault]) token
    (.choose (.ahead .typePattern) boundVariable (.rule .ternary))
  -- expressions
  | .expression =>
    .choose (.ahead .lambda) (.rule .lambda)
      (.rule .ternary ++
        optional assignments (node .assignExpr (token ++ call .expression)))
  | .lambda =>
    node .lambdaExpr
      (fresh .lambdaParameters
        (.choose atName name
          (token ++ .rule (.list .rparen .lambdaParameter) ++ expect .rparen))
      ++ expect .arrow
      ++ .choose (.next [.lbrace]) (call .block) (call .expression))
  | .lambdaParameter =>
    .choose (.both atName (.second [.comma, .rparen])) name (.rule .parameter)
  | .ternary =>
    .rule (.binary 1) ++
    optional [.question]
      (node .ternaryExpr (token ++ call .expression ++ expect .colon ++ lambdaOr .ternary))
  | .binary least => .rule .unary ++ .rule (.operators least)
  | .operators least =>
    .choose (.next (if least ≤ instanceofLevel then [.kwInstanceof] else []))
      (instanceofExpr ++ .rule (.operators least))
      (binaryOperators least binaryLevels)
  | .unary =>
    .choose (.next unaryOperators) (node .unaryExpr (token ++ call .unary))
    (.choose (.both (.next [.lparen]) (.ahead .cast))
      (node .castExpr
        (token ++ call .typeUse ++ .rule .castRest ++ expect .rparen ++ lambdaOr .unary))
      (.rule .primary ++ .rule .suffixes))
  | .castRest => optional [.amp] (token ++ call .typeUse ++ .rule .castRest)
  | .suffixes =>
    .choose (.next [.dot]) (dotSuffix ++ .rule .suffixes)
    (.choose (.next [.lparen])
      (.choose (.operand [.referenceExpr, .thisExpr, .superExpr])
        (node .callExpr (call .arguments) ++ .rule .suffixes) .done)
    (.choose (.next [.lbracket])
      (.choose (.second [.rbracket]) arrayTypeSuffix
        (node .arrayAccess (token ++ call .expression ++ expect .rbracket) ++ .rule .suffixes))
    (.choose (.next [.colonColon]) (.rule .methodRef ++ .rule .suffixes)
    (optional [.increment, .decrement] (node .postfixExpr token ++ .rule .suffixes)))))
  | .methodRef =>
    node .methodRef
      (token ++ optional [.less] (call (.typeArguments .typeArguments)) ++ referenceName)
  | .arguments =>
    node .arguments (expect .lparen ++ .rule (.list .rparen .expression) ++ expect .rparen)
  | .primary =>
    .choose (.next literals) (.take .literal)
    (.choose (.next [.kwThis]) (.take .thisExpr)
    (.choose (.next [.kwSuper]) (.take .superExpr)
    (.choose (.next [.kwNew]) (.rule .creation)
    (.choose (.next [.kwSwitch]) (.rule (.switch .switchExpr))
    (.choose (.next [.lparen])
      (node .parenExpr (token ++ call .expression ++ expect .rparen))
    (.choose (.next (.kwVoid :: TokenKind.primitives)) primitiveOperand
    (.choose atName
      (node .referenceExpr (fresh .referenceParameterList .done ++ name))
    (.choose (.next expressionEnds) (.missing .expectedExpression)
      (faultOne .noExpression)))))))))
  | .creation =>
    token ++ optional [.less] (call (.typeArguments .typeArguments)) ++ createdType ++
    .choose (.next [.lbracket])
      (node .newArrayExpr (.rule .arrayLengths ++ optional [.lbrace] (call .arrayInit)))
      (node .newExpr (call .arguments ++ optional [.lbrace] (call (.classBody false))))
  | .arrayLengths =>
    optional [.lbracket]
      (token ++ .choose (.next [.rbracket]) .done (call .expression) ++ expect .rbracket
        ++ .rule .arrayLengths)

end DotCompletion
