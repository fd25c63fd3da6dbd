import DotCompletion.Text.Letter
import DotCompletion.Token.Kind

/-!
# Words

Template names and identifiers have the shape of a word: a letter, underscore
or dollar sign, followed by more of these and by decimal digits.
-/

namespace DotCompletion.Word

/-- The character can begin a word. -/
def isLetter (c : Char) : Bool :=
  Letter.isLetter c || c == '_' || c == '$'

/-- The character can continue a word. -/
def isWordChar (c : Char) : Bool :=
  isLetter c || Letter.isDecimal c

/-- The text has the shape of an identifier. Keywords are words too. -/
def isWord (text : String) : Bool :=
  match text.toList with
  | [] => false
  | c :: cs => isLetter c && cs.all isWordChar

/-- The kind the text has as a token, if it is one word. -/
def kind (text : String) : TokenKind :=
  TokenKind.ofWord (Bytes.ofString text)

/-- The text is a word and not reserved, so that it can name something. -/
def isIdentifier (text : String) : Bool :=
  isWord text && (kind text).isIdentifier

end DotCompletion.Word
