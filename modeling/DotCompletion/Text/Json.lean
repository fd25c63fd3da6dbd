import DotCompletion.Text.Utf8
import DotCompletion.Text.Quoted

/-!
# JSON output

Values with integer numbers and fields in the order they are given. Strings are
byte strings; characters that could end a script or a line, and stray bytes,
are written as escapes.
-/

namespace DotCompletion

/-- A JSON value. -/
inductive Json where
  | null
  | bool (b : Bool)
  | int (n : Int)
  | text (bytes : Bytes)
  | list (items : List Json)
  | object (fields : List (String × Json))

namespace Json

/-- A string value. -/
def str (s : String) : Json := .text (Bytes.ofString s)

/-- A natural number. -/
def nat (n : Nat) : Json := .int n

/-- A value, or `null` if there is none. -/
def ofOption {α : Type} (f : α → Json) : Option α → Json
  | some a => f a
  | none => .null

/-- The controls with an escape of one letter. -/
def shortEscapes : List (Nat × Char) :=
  [(8, 'b'), (9, 't'), (10, 'n'), (12, 'f'), (13, 'r')]

/-- Characters that are written as escapes although they are printable. -/
def guarded : List Nat := [0x26, 0x3C, 0x3E, 0x2028, 0x2029]

/-- A piece of a string as it stands between the quotes. -/
def escapePiece : Piece → List Char
  | .stray _ => '\\' :: 'u' :: Quoted.hex 4 0xFFFD
  | .char c =>
    if c = '\\' ∨ c = '\x22' then ['\\', c]
    else
      match shortEscapes.lookup c.toNat with
      | some letter => ['\\', letter]
      | none =>
        if c.toNat < 0x20 ∨ guarded.contains c.toNat then '\\' :: 'u' :: Quoted.hex 4 c.toNat
        else [c]

/-- A string with its quotes. -/
def quote (bytes : Bytes) : List Char :=
  '\x22' :: (Utf8.pieces bytes).flatMap escapePiece ++ ['\x22']

/-- Between two items or after a bracket: nothing, or a new line indented by two
spaces per level. -/
def lineBreak (indented : Bool) (depth : Nat) : List Char :=
  if indented then '\n' :: List.replicate (2 * depth) ' ' else []

/-- What stands in front of an item: a comma unless it is the first. -/
def separator (indented : Bool) (depth : Nat) (first : Bool) : List Char :=
  (if first then [] else [',']) ++ lineBreak indented (depth + 1)

/-- What stands at the end of a list or an object; an empty one has no lines of
its own. -/
def closing (indented : Bool) (depth : Nat) (first : Bool) (bracket : Char) : List Char :=
  (if first then [] else lineBreak indented depth) ++ [bracket]

mutual

/-- A value, on one line or on indented lines, in front of what follows it. -/
def write (indented : Bool) (depth : Nat) : Json → List Char → List Char
  | .null, behind => "null".toList ++ behind
  | .bool true, behind => "true".toList ++ behind
  | .bool false, behind => "false".toList ++ behind
  | .int n, behind => (toString n).toList ++ behind
  | .text bytes, behind => quote bytes ++ behind
  | .list items, behind => '[' :: writeItems indented depth true items behind
  | .object fields, behind => '\x7b' :: writeFields indented depth true fields behind

/-- The items of a list and its end, in front of what follows it. -/
def writeItems (indented : Bool) (depth : Nat) (first : Bool) :
    List Json → List Char → List Char
  | [], behind => closing indented depth first ']' ++ behind
  | item :: items, behind =>
    separator indented depth first
      ++ write indented (depth + 1) item (writeItems indented depth false items behind)

/-- The fields of an object and its end, in front of what follows it. -/
def writeFields (indented : Bool) (depth : Nat) (first : Bool) :
    List (String × Json) → List Char → List Char
  | [], behind => closing indented depth first '\x7d' ++ behind
  | (name, value) :: fields, behind =>
    separator indented depth first ++ quote (Bytes.ofString name)
      ++ (if indented then [':', ' '] else [':'])
      ++ write indented (depth + 1) value (writeFields indented depth false fields behind)

end

/-- The value on one line. -/
def compact (j : Json) : String := String.ofList (write false 0 j [])

/-- The value on indented lines. -/
def pretty (j : Json) : String := String.ofList (write true 0 j [])

end Json

end DotCompletion
