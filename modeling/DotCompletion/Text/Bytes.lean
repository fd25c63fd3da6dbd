/-!
# Byte strings

Source files are byte strings: nothing promises that they are valid text, and
every offset the library hands out counts bytes. This module fixes the
representation and its few operations.
-/

namespace DotCompletion

section

variable {α : Type} {p : α → Prop} [DecidablePred p]

/-- What holds of all elements of a list is decided by going over the list, also where there are
only finitely many values, as there are of bytes. -/
instance (priority := high) decidableForallList (row : List α) : Decidable (∀ a ∈ row, p a) :=
  List.decidableBAll p row

/-- The same for an element that may be missing. -/
instance (priority := high) decidableForallOption (o : Option α) : Decidable (∀ a ∈ o, p a) :=
  o.decidableForallMem

end

/-- A byte string. -/
abbrev Bytes := List UInt8

namespace Bytes

/-- The UTF-8 encoding of a text. -/
def ofString (text : String) : Bytes :=
  text.toList.flatMap String.utf8EncodeChar

/-- The bytes between two offsets; offsets past the end are cut back to it. -/
def slice (bytes : Bytes) (start stop : Nat) : Bytes :=
  (bytes.take stop).drop start

/-- The first byte is the given ASCII character. -/
def startsWith (c : Char) (bytes : Bytes) : Bool :=
  bytes.head? == some c.toUInt8

/-- The last byte is the given ASCII character. -/
def endsWith (c : Char) (bytes : Bytes) : Bool :=
  bytes.getLast? == some c.toUInt8

/-- What follows `lead`, if the byte string begins with it. -/
def after? (lead bytes : Bytes) : Option Bytes :=
  if lead.isPrefixOf bytes then some (bytes.drop lead.length) else none

/-- `part` stands somewhere in the byte string. -/
def holds (part : Bytes) : Bytes → Bool
  | [] => part.isEmpty
  | b :: rest => part.isPrefixOf (b :: rest) || holds part rest

end Bytes

end DotCompletion
