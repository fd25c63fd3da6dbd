import DotCompletion.Text.Bytes

/-!
# Positions in a source

A position carries a byte offset from zero together with the line and the
column a reader sees, both from one. Columns count bytes. A span is the part of
the source between two positions.
-/

namespace DotCompletion

/-- A place between two bytes of a source. -/
structure Position where
  offset : Nat
  line : Nat
  column : Nat
deriving DecidableEq, Repr, Inhabited

namespace Position

/-- The beginning of every source. -/
def origin : Position := ⟨0, 1, 1⟩

/-- The place behind one more byte: a newline opens the next line. -/
def step (p : Position) (b : UInt8) : Position :=
  if b = '\n'.toUInt8 then ⟨p.offset + 1, p.line + 1, 1⟩
  else ⟨p.offset + 1, p.line, p.column + 1⟩

/-- The place behind a row of bytes. -/
def advance (p : Position) (bytes : Bytes) : Position :=
  bytes.foldl step p

/-- The place one byte further on the same line. -/
def right (p : Position) : Position :=
  ⟨p.offset + 1, p.line, p.column + 1⟩

/-- The place one byte back on the same line. -/
def left (p : Position) : Position :=
  ⟨p.offset - 1, p.line, p.column - 1⟩

/-- Line and column, separated by a colon. -/
def render (p : Position) : String :=
  toString p.line ++ ":" ++ toString p.column

end Position

/-- The offset lies between two others, or falls on one of them. -/
def touches (start stop offset : Int) : Bool :=
  decide (start ≤ offset ∧ offset ≤ stop)

/-- The part of a source between two positions. -/
structure Span where
  start : Position
  stop : Position
deriving DecidableEq, Repr, Inhabited

namespace Span

/-- The empty span at a position. -/
def point (p : Position) : Span := ⟨p, p⟩

/-- A span known by its offsets alone. -/
def ofOffsets (start stop : Nat) : Span :=
  ⟨⟨start, 0, 0⟩, ⟨stop, 0, 0⟩⟩

/-- The offset lies in the span. The end counts as inside, so that a cursor
right behind a token still touches it. -/
def contains (s : Span) (offset : Int) : Bool :=
  touches s.start.offset s.stop.offset offset

/-- Start and end fall together. -/
def isEmpty (s : Span) : Bool :=
  s.start.offset == s.stop.offset

/-- The bytes of the source that the span covers. -/
def text (s : Span) (source : Bytes) : Bytes :=
  source.slice s.start.offset s.stop.offset

end Span

end DotCompletion
