import DotCompletion.Grammar.Run

/-!
# Reading sessions

A session reads one input at a time as a file, as statements or as an
expression. The input is fetched when a tree is first asked for; fetching may
fail, and then there is no tree. Each tree is read anew from the tokens of what
was fetched, and reading moves on in them and cuts some. A session can be given
a new input at any time.
-/

namespace DotCompletion

/-- A session, its input and what was made of it. -/
structure Reading where
  entry : Entry
  /-- The name of the file, for those who look at positions. -/
  file : String
  /-- The input; `none` cannot be fetched. -/
  input : Option Bytes
  /-- The input was fetched. -/
  fetched : Bool
  /-- What was fetched. -/
  source : Option Bytes
  /-- The tokens as the last tree left them, and the place among them. -/
  cursor : Cursor

namespace Reading

/-- A new session. -/
def start (entry : Entry) (file : String) (input : Option Bytes) : Reading :=
  ⟨entry, file, input, false, none, .ofSource []⟩

/-- Fetch the input if that was not done yet; nothing if it fails. -/
def fetch (r : Reading) : Option Reading :=
  if r.fetched then some r
  else r.input.map fun source => { r with fetched := true, source := some source }

/-- What was fetched; nothing is read as an empty source. -/
def text (r : Reading) : Bytes := r.source.getD []

/-- Go to the beginning of the tokens, all of them whole again. -/
def rewind (r : Reading) : Reading := { r with cursor := .ofSource r.text }

/-- Read a tree from the current place on. -/
def read (r : Reading) : Node × Reading :=
  match r.entry.rule.run (Entry.budget r.text) [] r.cursor with
  | some (node :: _, cursor) => (node, { r with cursor })
  | _ => (.missing .origin ⟨.expectedExpression, none⟩, r)

/-- The tree of the current input, which is fetched if it was not yet. A session
whose input cannot be fetched stays as it is. -/
def finish (r : Reading) : Option Node × Reading :=
  match r.fetch with
  | none => (none, r)
  | some fetched =>
    let (node, r) := fetched.rewind.read
    (some node, r)

/-- Go on with another input. -/
def reset (r : Reading) (input : Option Bytes) : Reading :=
  { r with input, fetched := false, source := none, cursor := .ofSource [] }

end Reading

end DotCompletion
