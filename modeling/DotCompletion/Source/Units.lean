import DotCompletion.Source.Offset
import DotCompletion.Text.Utf8

/-!
# Columns in UTF-16 units

Editors count lines from zero and columns in UTF-16 code units. A stray byte
counts as one unit.
-/

namespace DotCompletion.Source

/-- The bytes of the characters that are needed to reach a number of units, and
the units they have. A character that is begun is taken whole. -/
def reach (units : Int) : List Piece → Nat × Nat
  | [] => (0, 0)
  | p :: rest =>
    if 0 < units then
      let behind := reach (units - p.units) rest
      (p.size + behind.1, p.units + behind.2)
    else (0, 0)

/-- The column of a place on a line that is given in units. Units past the end of
the line count as a byte each. -/
def byteColumn (source : Bytes) (line units : Int) : Nat :=
  let reached := reach units (Utf8.pieces (lineText source line))
  reached.1 + 1 + (units - reached.2).toNat

/-- The units of the characters that start within a number of bytes. -/
def unitsWithin (bytes : Int) : List Piece → Nat
  | [] => 0
  | p :: rest => if 0 < bytes then p.units + unitsWithin (bytes - p.size) rest else 0

/-- The place of an editor: line and units, both from zero. -/
structure EditorPosition where
  line : Nat
  character : Nat
deriving DecidableEq, Repr

/-- A line and a column as an editor counts them, in numbers of 32 bits. Of a
longer number the low bits are told. -/
def editorPosition (source : Bytes) (line column : Int) : EditorPosition where
  line := ((line - 1) % 0x100000000).toNat
  character := unitsWithin (column - 1) (Utf8.pieces (lineText source line)) % 0x100000000

end DotCompletion.Source
