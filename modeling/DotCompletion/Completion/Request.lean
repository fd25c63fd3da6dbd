import DotCompletion.Completion.Proposal
import DotCompletion.Source.Offset
import DotCompletion.Text.Blank

/-!
# Completion at a position

The source is read once more with a made-up identifier at the cursor, so that a
keyword typed behind a dot still reads as a name. A semicolon follows it if
nothing else is on the line. Proposals replace nothing behind the cursor.
-/

namespace DotCompletion

/-- Where and how completion is asked for. -/
structure Request where
  entry : Entry
  line : Int
  column : Int
  /-- The user asked for completion. -/
  force : Bool

/-- A position that the source does not have. -/
structure InvalidPosition where
  line : Int
  column : Int
deriving DecidableEq, Repr

/-- The complaint about a position. -/
def InvalidPosition.message (e : InvalidPosition) : String :=
  toString e.line ++ ":" ++ toString e.column ++ ": position outside of file"

namespace Request

/-- The identifier inserted at the cursor. -/
def dummy : Bytes := Bytes.ofString "PostfixDummyIdent"

/-- The source with the identifier inserted. -/
def patch (source : Bytes) (offset : Nat) : Bytes :=
  source.take offset ++ dummy
    ++ (if Blank.isBlankText (Source.restOfLine source offset) then [';'.toUInt8] else [])
    ++ source.drop offset

/-- A proposal that ends at the cursor at the latest. -/
def clamp (cursor : Position) (p : Proposal) : Proposal :=
  if cursor.offset < p.replace.stop.offset then
    { p with replace := { p.replace with stop := cursor } }
  else p

/-- The proposals of a manager for a request. -/
def complete (r : Request) (m : Manager) (source : Bytes) :
    Except InvalidPosition (List Proposal) :=
  match Source.offset? source r.line r.column with
  | none => .error ⟨r.line, r.column⟩
  | some offset =>
    let tree := Tree.parse r.entry (patch source offset)
    let leaf := tree.leafAt? (offset + dummy.length)
    let cursor : Position := ⟨offset, r.line.toNat, r.column.toNat⟩
    .ok ((m.available tree leaf r.force).map (clamp cursor))

end Request

end DotCompletion
