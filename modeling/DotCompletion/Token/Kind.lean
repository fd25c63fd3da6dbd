import DotCompletion.Text.Bytes

/-!
# Kinds of tokens

The words, literals and signs of the Java language, and the kinds of text
between them. Every kind has a name for listings; for keywords and signs it is
their spelling.
-/

namespace DotCompletion

/-- The kind of a token. -/
inductive TokenKind where
  -- end of input, text no token matches, and text between tokens
  | eof | error | whitespace | comment | lineComment
  -- names and literals
  | identifier | intLiteral | floatLiteral | charLiteral | stringLiteral | textBlock | kwTrue
  | kwFalse | kwNull
  -- reserved words
  | kwAbstract | kwAssert | kwBoolean | kwBreak | kwByte | kwCase | kwCatch | kwChar | kwClass
  | kwConst | kwContinue | kwDefault | kwDo | kwDouble | kwElse | kwEnum | kwExtends | kwFinal
  | kwFinally | kwFloat | kwFor | kwGoto | kwIf | kwImplements | kwImport | kwInstanceof | kwInt
  | kwInterface | kwLong | kwNative | kwNew | kwPackage | kwPrivate | kwProtected | kwPublic
  | kwReturn | kwShort | kwStatic | kwStrictfp | kwSuper | kwSwitch | kwSynchronized | kwThis
  | kwThrow | kwThrows | kwTransient | kwTry | kwVoid | kwVolatile | kwWhile
  -- words reserved in some places only
  | kwVar | kwYield | kwRecord | kwSealed | kwNonSealed | kwPermits
  -- brackets and separators
  | lparen | rparen | lbrace | rbrace | lbracket | rbracket | semicolon | comma | dot | ellipsis
  | atSign | colonColon
  -- operators
  | assign | equal | notEqual | less | lessEqual | greater | greaterEqual | andAnd | orOr | bang
  | amp | bar | caret | tilde | shiftLeft | shiftRight | shiftRightZero | plus | minus | star
  | slash | percent | increment | decrement | question | colon | arrow | plusAssign
  | minusAssign | starAssign | slashAssign | percentAssign | andAssign | orAssign | xorAssign
  | shiftLeftAssign | shiftRightAssign | shiftRightZeroAssign
deriving DecidableEq, Repr, Inhabited

namespace TokenKind

/-- Every kind, in the order of its number. -/
def all : List TokenKind :=
  [.eof, .error, .whitespace, .comment, .lineComment, .identifier, .intLiteral, .floatLiteral,
   .charLiteral, .stringLiteral, .textBlock, .kwTrue, .kwFalse, .kwNull, .kwAbstract, .kwAssert,
   .kwBoolean, .kwBreak, .kwByte, .kwCase, .kwCatch, .kwChar, .kwClass, .kwConst, .kwContinue,
   .kwDefault, .kwDo, .kwDouble, .kwElse, .kwEnum, .kwExtends, .kwFinal, .kwFinally, .kwFloat,
   .kwFor, .kwGoto, .kwIf, .kwImplements, .kwImport, .kwInstanceof, .kwInt, .kwInterface,
   .kwLong, .kwNative, .kwNew, .kwPackage, .kwPrivate, .kwProtected, .kwPublic, .kwReturn,
   .kwShort, .kwStatic, .kwStrictfp, .kwSuper, .kwSwitch, .kwSynchronized, .kwThis, .kwThrow,
   .kwThrows, .kwTransient, .kwTry, .kwVoid, .kwVolatile, .kwWhile, .kwVar, .kwYield, .kwRecord,
   .kwSealed, .kwNonSealed, .kwPermits, .lparen, .rparen, .lbrace, .rbrace, .lbracket,
   .rbracket, .semicolon, .comma, .dot, .ellipsis, .atSign, .colonColon, .assign, .equal,
   .notEqual, .less, .lessEqual, .greater, .greaterEqual, .andAnd, .orOr, .bang, .amp, .bar,
   .caret, .tilde, .shiftLeft, .shiftRight, .shiftRightZero, .plus, .minus, .star, .slash,
   .percent, .increment, .decrement, .question, .colon, .arrow, .plusAssign, .minusAssign,
   .starAssign, .slashAssign, .percentAssign, .andAssign, .orAssign, .xorAssign,
   .shiftLeftAssign, .shiftRightAssign, .shiftRightZeroAssign]

/-- The kind with a given number. -/
def ofNat? (n : Nat) : Option TokenKind := all[n]?

/-- The name of a kind in listings and messages. -/
def name : TokenKind → String
  | eof => "EOF"
  | error => "Error"
  | whitespace => "Whitespace"
  | comment => "Comment"
  | lineComment => "LineComment"
  | identifier => "Identifier"
  | intLiteral => "IntLiteral"
  | floatLiteral => "FloatLiteral"
  | charLiteral => "CharLiteral"
  | stringLiteral => "StringLiteral"
  | textBlock => "TextBlock"
  | kwTrue => "true"
  | kwFalse => "false"
  | kwNull => "null"
  | kwAbstract => "abstract"
  | kwAssert => "assert"
  | kwBoolean => "boolean"
  | kwBreak => "break"
  | kwByte => "byte"
  | kwCase => "case"
  | kwCatch => "catch"
  | kwChar => "char"
  | kwClass => "class"
  | kwConst => "const"
  | kwContinue => "continue"
  | kwDefault => "default"
  | kwDo => "do"
  | kwDouble => "double"
  | kwElse => "else"
  | kwEnum => "enum"
  | kwExtends => "extends"
  | kwFinal => "final"
  | kwFinally => "finally"
  | kwFloat => "float"
  | kwFor => "for"
  | kwGoto => "goto"
  | kwIf => "if"
  | kwImplements => "implements"
  | kwImport => "import"
  | kwInstanceof => "instanceof"
  | kwInt => "int"
  | kwInterface => "interface"
  | kwLong => "long"
  | kwNative => "native"
  | kwNew => "new"
  | kwPackage => "package"
  | kwPrivate => "private"
  | kwProtected => "protected"
  | kwPublic => "public"
  | kwReturn => "return"
  | kwShort => "short"
  | kwStatic => "static"
  | kwStrictfp => "strictfp"
  | kwSuper => "super"
  | kwSwitch => "switch"
  | kwSynchronized => "synchronized"
  | kwThis => "this"
  | kwThrow => "throw"
  | kwThrows => "throws"
  | kwTransient => "transient"
  | kwTry => "try"
  | kwVoid => "void"
  | kwVolatile => "volatile"
  | kwWhile => "while"
  | kwVar => "var"
  | kwYield => "yield"
  | kwRecord => "record"
  | kwSealed => "sealed"
  | kwNonSealed => "non-sealed"
  | kwPermits => "permits"
  | lparen => "("
  | rparen => ")"
  | lbrace => "\x7b"
  | rbrace => "\x7d"
  | lbracket => "["
  | rbracket => "]"
  | semicolon => ";"
  | comma => ","
  | dot => "."
  | ellipsis => "..."
  | atSign => "@"
  | colonColon => "::"
  | assign => "="
  | equal => "=="
  | notEqual => "!="
  | less => "<"
  | lessEqual => "<="
  | greater => ">"
  | greaterEqual => ">="
  | andAnd => "&&"
  | orOr => "||"
  | bang => "!"
  | amp => "&"
  | bar => "|"
  | caret => "^"
  | tilde => "~"
  | shiftLeft => "<<"
  | shiftRight => ">>"
  | shiftRightZero => ">>>"
  | plus => "+"
  | minus => "-"
  | star => "*"
  | slash => "/"
  | percent => "%"
  | increment => "++"
  | decrement => "--"
  | question => "?"
  | colon => ":"
  | arrow => "->"
  | plusAssign => "+="
  | minusAssign => "-="
  | starAssign => "*="
  | slashAssign => "/="
  | percentAssign => "%="
  | andAssign => "&="
  | orAssign => "|="
  | xorAssign => "^="
  | shiftLeftAssign => "<<="
  | shiftRightAssign => ">>="
  | shiftRightZeroAssign => ">>>="

/-- The words `true`, `false` and `null`. -/
def literalWords : List TokenKind := [.kwTrue, .kwFalse, .kwNull]

/-- The words that are never names. -/
def reservedWords : List TokenKind :=
  [.kwAbstract, .kwAssert, .kwBoolean, .kwBreak, .kwByte, .kwCase, .kwCatch, .kwChar, .kwClass,
   .kwConst, .kwContinue, .kwDefault, .kwDo, .kwDouble, .kwElse, .kwEnum, .kwExtends, .kwFinal,
   .kwFinally, .kwFloat, .kwFor, .kwGoto, .kwIf, .kwImplements, .kwImport, .kwInstanceof,
   .kwInt, .kwInterface, .kwLong, .kwNative, .kwNew, .kwPackage, .kwPrivate, .kwProtected,
   .kwPublic, .kwReturn, .kwShort, .kwStatic, .kwStrictfp, .kwSuper, .kwSwitch, .kwSynchronized,
   .kwThis, .kwThrow, .kwThrows, .kwTransient, .kwTry, .kwVoid, .kwVolatile, .kwWhile]

/-- The words that are names wherever the grammar gives them no other meaning. -/
def contextualWords : List TokenKind :=
  [.kwVar, .kwYield, .kwRecord, .kwSealed, .kwPermits]

/-- The kinds of tokens spelled as one word. -/
def words : List TokenKind := literalWords ++ reservedWords ++ contextualWords

/-- A reserved or contextual word, literal words included. -/
def isKeyword (k : TokenKind) : Bool := k == .kwNonSealed || words.contains k

/-- The signs, ordered so that a longer one stands before those it begins
with. -/
def signs : List TokenKind :=
  [.shiftRightZeroAssign, .shiftLeftAssign, .shiftRightAssign, .shiftRightZero, .ellipsis,
   .colonColon, .arrow, .equal, .notEqual, .lessEqual, .greaterEqual, .andAnd, .orOr,
   .shiftLeft, .shiftRight, .increment, .decrement, .plusAssign, .minusAssign, .starAssign,
   .slashAssign, .percentAssign, .andAssign, .orAssign, .xorAssign, .lparen, .rparen, .lbrace,
   .rbrace, .lbracket, .rbracket, .semicolon, .comma, .dot, .atSign, .assign, .less, .greater,
   .bang, .tilde, .question, .colon, .amp, .bar, .caret, .plus, .minus, .star, .slash, .percent]

/-- The words with their spellings. -/
def wordSpellings : List (Bytes × TokenKind) :=
  words.map fun k => (Bytes.ofString k.name, k)

/-- The signs with their spellings. -/
def signSpellings : List (Bytes × TokenKind) :=
  signs.map fun k => (Bytes.ofString k.name, k)

/-- The kind of a word: a keyword if it is spelled like one, else a name. -/
def ofWord (word : Bytes) : TokenKind :=
  (wordSpellings.lookup word).getD .identifier

/-- The kind of a sign, or `error` if there is none with this spelling. -/
def ofSign (sign : Bytes) : TokenKind :=
  (signSpellings.lookup sign).getD .error

/-- The kinds that can stand for a name. -/
def identifiers : List TokenKind := .identifier :: contextualWords

/-- The primitive types. -/
def primitives : List TokenKind :=
  [.kwBoolean, .kwByte, .kwChar, .kwShort, .kwInt, .kwLong, .kwFloat, .kwDouble]

/-- The token can stand for a name. -/
def isIdentifier (k : TokenKind) : Bool := identifiers.contains k

/-- The token is a primitive type. -/
def isPrimitive (k : TokenKind) : Bool := primitives.contains k

/-- White space and comments, which the grammar never sees. -/
def isTrivia (k : TokenKind) : Bool :=
  [TokenKind.whitespace, .comment, .lineComment].contains k

/-- The kind with a given name. -/
def ofName? (name : String) : Option TokenKind :=
  all.find? fun k => k.name == name

end TokenKind

end DotCompletion
