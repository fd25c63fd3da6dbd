import DotCompletion.Text.Bytes

/-!
# File paths

Paths are byte strings whose parts are separated by slashes. A part `.` means
the directory itself, a part `..` the one above it.
-/

namespace DotCompletion.Path

/-- The byte between two parts. -/
def slash : UInt8 := '/'.toUInt8

/-- The parts of a path, empty ones included. -/
def parts : Bytes → List Bytes
  | [] => [[]]
  | b :: rest =>
    if b = slash then [] :: parts rest
    else
      match parts rest with
      | part :: more => (b :: part) :: more
      | [] => [[b]]

/-- The part that means the directory itself. -/
def here : Bytes := Bytes.ofString "."

/-- The part that means the directory above. -/
def up : Bytes := Bytes.ofString ".."

/-- The last part that is not empty: `a` for `x/a/`. The root is its own last
part, and an empty path means the directory itself. -/
def base (path : Bytes) : Bytes :=
  match (parts path).reverse.find? (!·.isEmpty) with
  | some part => part
  | none => if path.isEmpty then here else [slash]

/-- Follow one part from a directory, given by its parts from the inside out.
Above the root there is only the root. -/
def follow (rooted : Bool) (directory : List Bytes) (part : Bytes) : List Bytes :=
  if part.isEmpty ∨ part = here then directory
  else if part = up then
    match directory with
    | [] => if rooted then [] else [up]
    | last :: outer => if last = up then up :: directory else outer
  else part :: directory

/-- Parts put together with slashes between them. -/
def join : List Bytes → Bytes
  | [] => []
  | [part] => part
  | part :: rest => part ++ slash :: join rest

/-- Where a path leads, seen from the root or from the current directory. -/
structure Location where
  rooted : Bool
  /-- The parts of the path, from the inside out. A part `..` stands only behind
  others of its kind. -/
  parts : List Bytes
deriving DecidableEq, Repr

namespace Location

/-- Where the parts of a path start. -/
def start (path : Bytes) : Location := ⟨Bytes.startsWith '/' path, []⟩

/-- The location that one part leads to. -/
def follow (l : Location) (part : Bytes) : Location :=
  { l with parts := Path.follow l.rooted l.parts part }

/-- Where a path leads. -/
def ofPath (path : Bytes) : Location := (Path.parts path).foldl follow (start path)

/-- The directory that a location is in; the root is in itself. -/
def directory (l : Location) : Location := { l with parts := l.parts.drop 1 }

/-- The shortest path that leads to a location. -/
def path (l : Location) : Bytes :=
  match l.rooted, l.parts.reverse with
  | true, parts => slash :: join parts
  | false, [] => here
  | false, parts => join parts

end Location

/-- The shortest path that means the same: without empty parts, without `.` and
without a part that a following `..` leaves again. -/
def clean (path : Bytes) : Bytes := (Location.ofPath path).path

/-- What follows the last dot of the last part, with the dot; nothing if there is
no dot. -/
def extension (path : Bytes) : Bytes :=
  let last := (parts path).getLast?.getD []
  let tail := (last.reverse.takeWhile (· != '.'.toUInt8)).reverse
  if tail.length < last.length then '.'.toUInt8 :: tail else []

end DotCompletion.Path
