import DotCompletion.Text.Path

/-!
# Files

A store of files, with the time when each was written last. A path is followed
part by part; it must lead through directories to a file.
-/

namespace DotCompletion

open DotCompletion.Path (Location)

/-- A file. -/
structure StoredFile where
  content : Bytes
  /-- When the file was written last. -/
  modified : Int
deriving DecidableEq, Repr

/-- Why there is no file at a path. -/
inductive FileFault where
  | missing
  /-- The path goes on behind a file. -/
  | notDirectory
  | isDirectory
  /-- There is a zero byte in the path. -/
  | badName
  /-- The path, or a part of it, is too long. -/
  | longName
deriving DecidableEq, Repr

namespace FileFault

/-- What cannot be done with the path. -/
def action : FileFault → String
  | isDirectory => "read"
  | _ => "open"

/-- The reason in words. -/
def reason : FileFault → String
  | missing => "no such file or directory"
  | notDirectory => "not a directory"
  | isDirectory => "is a directory"
  | badName => "invalid argument"
  | longName => "file name too long"

end FileFault

/-- A file that cannot be read. -/
structure FileError where
  path : Bytes
  fault : FileFault
deriving DecidableEq, Repr

/-- The complaint about a file. -/
def FileError.message (e : FileError) : Bytes :=
  Bytes.ofString (e.fault.action ++ " ") ++ e.path ++ Bytes.ofString (": " ++ e.fault.reason)

/-- A store of files. -/
structure Files where
  entries : List (Location × StoredFile)
  /-- The directories in which there is or was a file. -/
  directories : List Location

namespace Files

/-- No files. -/
def empty : Files := ⟨[], []⟩

/-- There is a directory at a location. The current directory is one, and so is
every one around it. -/
def isDirectory (files : Files) (l : Location) : Bool :=
  l.parts.all (· == Path.up) || files.directories.contains l

/-- The file at a location. -/
def fileAt? (files : Files) (l : Location) : Option StoredFile := files.entries.lookup l

/-- Why a path cannot go on behind a location; `none` if it can. -/
def obstacle? (files : Files) (l : Location) : Option FileFault :=
  if files.isDirectory l then none
  else if (files.fileAt? l).isSome then some .notDirectory
  else some .missing

/-- The number of bytes that a path may have. -/
def pathLimit : Nat := 4095

/-- The number of bytes that a part of a path may have. -/
def partLimit : Nat := 255

/-- Follow the parts of a path from a location on. -/
def walk (files : Files) (l : Location) : List Bytes → Except FileFault Location
  | [] => .ok l
  | part :: parts =>
    match files.obstacle? l with
    | some fault => .error fault
    | none =>
      if partLimit < part.length then .error .longName
      else files.walk (l.follow part) parts

/-- The file at a path. -/
def find (files : Files) (path : Bytes) : Except FileFault StoredFile := do
  if path.contains 0 then throw .badName
  if pathLimit < path.length then throw .longName
  if path.isEmpty then throw .missing
  let l ← files.walk (.start path) (Path.parts path)
  match files.fileAt? l with
  | some file => pure file
  | none => throw (if files.isDirectory l then .isDirectory else .missing)

/-- The file at a path, if there is one. -/
def get? (files : Files) (path : Bytes) : Option StoredFile := (files.find path).toOption

/-- The content of the file at a path. -/
def read (files : Files) (path : Bytes) : Except FileError Bytes :=
  match files.find path with
  | .ok file => .ok file.content
  | .error fault => .error ⟨path, fault⟩

/-- The store without the file at a path. -/
def delete (files : Files) (path : Bytes) : Files :=
  { files with entries := files.entries.filter fun entry => entry.1 != .ofPath path }

/-- The directories around a location, from the inside out. The count bounds
their number. -/
def around : Nat → Location → List Location
  | 0, _ => []
  | n + 1, l => l.directory :: around n l.directory

/-- The store with a file written. -/
def write (files : Files) (path : Bytes) (file : StoredFile) : Files :=
  let l := Location.ofPath path
  ⟨(l, file) :: (files.delete path).entries, around l.parts.length l ++ files.directories⟩

end Files

end DotCompletion
