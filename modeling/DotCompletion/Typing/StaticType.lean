import DotCompletion.Text.Utf8

/-!
# Static types

A type is known by the way it is written: `int`, `String`, `List<String>[]`.
Names are not looked up anywhere, so a simple name and a qualified one may mean
the same type.
-/

namespace DotCompletion

/-- A type as written in a source. -/
structure StaticType where
  text : Bytes
deriving DecidableEq, Repr

namespace StaticType

/-- The type with the given text. -/
def named (text : String) : StaticType := ⟨Bytes.ofString text⟩

def boolean : StaticType := named "boolean"
def byte : StaticType := named "byte"
def short : StaticType := named "short"
def char : StaticType := named "char"
def int : StaticType := named "int"
def long : StaticType := named "long"
def float : StaticType := named "float"
def double : StaticType := named "double"
def string : StaticType := named "String"
def null : StaticType := named "null"
def classType : StaticType := named "Class"

/-- The primitive types with numbers as values. -/
def numeric : List StaticType := [byte, short, char, int, long, float, double]

/-- A primitive type with numbers as values. -/
def isNumeric (t : StaticType) : Bool := numeric.contains t

/-- A primitive type. -/
def isPrimitive (t : StaticType) : Bool := t == boolean || t.isNumeric

/-- The type of truth values, boxed or not. -/
def isBoolean (t : StaticType) : Bool :=
  t == boolean || t == named "Boolean" || t == named "java.lang.Boolean"

/-- The brackets behind an array type. -/
def brackets : Bytes := Bytes.ofString "[]"

/-- An array type. -/
def isArray (t : StaticType) : Bool := brackets.isSuffixOf t.text

/-- The type of the elements of an array; other types stay as they are. -/
def element (t : StaticType) : StaticType :=
  if t.isArray then ⟨t.text.take (t.text.length - brackets.length)⟩ else t

/-- An array type with the given number of dimensions more. -/
def arrayOf (t : StaticType) (dimensions : Nat) : StaticType :=
  ⟨t.text ++ (List.replicate dimensions brackets).flatten⟩

/-- The text outside of angle brackets, from a given depth of brackets on. -/
def outside (depth : Int) : List Piece → Bytes
  | [] => []
  | p :: rest =>
    if p = .char '<' then outside (depth + 1) rest
    else if p = .char '>' then outside (depth - 1) rest
    else if depth = 0 then String.utf8EncodeChar p.toChar ++ outside depth rest
    else outside depth rest

/-- The type without type arguments: `Map<K, V>[]` becomes `Map[]`. -/
def erasure (t : StaticType) : StaticType := ⟨outside 0 (Utf8.pieces t.text)⟩

/-- The type is the one a name means. A simple name also means a qualified
type, and type arguments count only if the name has some. -/
def isNamed (t : StaticType) (name : String) : Bool :=
  let name := Bytes.ofString name
  let shown := if Bytes.holds (Bytes.ofString "<") name then t else t.erasure
  t.text == name || shown.text == name || ('.'.toUInt8 :: name).isSuffixOf shown.text

/-- The common type of two numbers. -/
def promote (a b : StaticType) : StaticType :=
  ([double, float, long].find? fun wide => a == wide || b == wide).getD int

end StaticType

end DotCompletion
