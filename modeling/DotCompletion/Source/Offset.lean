import DotCompletion.Source.Position

/-!
# From lines and columns to offsets

Lines are separated by newlines and counted from one, columns count bytes from
one. A column may point right behind the last byte of its line.
-/

namespace DotCompletion.Source

/-- A byte other than a newline. -/
def isInLine (b : UInt8) : Bool := b != '\n'.toUInt8

/-- The number of bytes in front of a line, counted from zero. -/
def lineStart? : Nat → Bytes → Option Nat
  | 0, _ => some 0
  | n + 1, source =>
    let line := source.takeWhile isInLine
    match source.dropWhile isInLine with
    | [] => none
    | _ :: rest => (lineStart? n rest).map fun start => line.length + 1 + start

/-- The text of a line without its newline; nothing behind the last line. Lines
before the first count as the first. -/
def lineText (source : Bytes) (line : Int) : Bytes :=
  match lineStart? (line - 1).toNat source with
  | some start => (source.drop start).takeWhile isInLine
  | none => []

/-- The offset of a line and a column, if the source has such a place. -/
def offset? (source : Bytes) (line column : Int) : Option Nat :=
  if line < 1 ∨ column < 1 then none
  else
    match lineStart? (line - 1).toNat source with
    | none => none
    | some start =>
      let last := start + ((source.drop start).takeWhile isInLine).length
      let offset := start + (column - 1).toNat
      if offset ≤ last then some offset else none

/-- What follows on the line behind an offset. -/
def restOfLine (source : Bytes) (offset : Nat) : Bytes :=
  (source.drop offset).takeWhile isInLine

end DotCompletion.Source
