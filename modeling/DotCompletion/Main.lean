import DotCompletion.CommandLine.Program

/-!
# Running the program

Reads the files that the command line names, runs the program on them and prints
what it says. Editors talk to the server over a connection that is not part of
this library.
-/

namespace DotCompletion

/-- The files at those of the paths where there are any. -/
def readFiles (paths : List String) : IO Files :=
  paths.foldlM (fun files (path : String) => do
    try
      let content ← IO.FS.readBinFile path
      pure (files.write (Bytes.ofString path) ⟨content.toList, 0⟩)
    catch _ => pure files) .empty

end DotCompletion

open DotCompletion in
def main (words : List String) : IO UInt32 := do
  let files ← readFiles (Program.paths words)
  match Program.run files words with
  | .ok (.print output) =>
    (← IO.getStdout).write ⟨output.toArray⟩
    pure 0
  | .ok (.serve _) =>
    IO.eprintln "Error: no connection to an editor"
    pure 1
  | .error e =>
    IO.eprintln ("Error: " ++ Utf8.toText e.message)
    pure 1
