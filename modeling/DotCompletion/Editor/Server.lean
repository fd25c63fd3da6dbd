import DotCompletion.Editor.CompletionItem
import DotCompletion.Editor.Uri
import DotCompletion.Editor.Workspace
import DotCompletion.Settings.Load
import DotCompletion.Template.Expansion

/-!
# The editor's server

An editor tells the server which documents are open and what they hold, and
asks for completions. Documents are named by addresses; what is said about a
badly written address is ignored. A watcher looks from time to time whether the
settings file was written again, and then gives the new templates to the
workspace it serves.
-/

namespace DotCompletion

/-- A server: where its settings are, and its workspace. -/
structure Server where
  version : String
  /-- The settings file; empty for the built-in settings. -/
  settings : Bytes
  workspace : Workspace

/-- What an editor says about a change of a document. -/
inductive Change where
  /-- The whole new text. -/
  | whole (text : Bytes)
  /-- A part of the text; this is not what the server asked for. -/
  | part (text : Bytes)
deriving DecidableEq, Repr

namespace Server

/-- A server that no editor has greeted yet: it has no templates. -/
def start (version : String) (settings : Bytes) : Server :=
  ⟨version, settings, .start 0 Path.here ⟨[]⟩⟩

/-- The templates of the settings file, or the built-in ones if it cannot be
loaded. -/
def templates (s : Server) (files : Files) : List Template :=
  match Settings.loadOrBuiltIn files s.settings with
  | .ok templates => templates
  | .error _ => Settings.builtIn

/-- The directory of the project, from a path and an address that the editor may
give. -/
def rootOf (path uri : Option Bytes) : Bytes :=
  match path.filter (!·.isEmpty), uri.filter (!·.isEmpty) with
  | some path, _ => path
  | none, some uri => (Uri.path? uri).getD Path.here
  | none, none => Path.here

/-- An editor greets the server, which begins with a new workspace. -/
def greet (s : Server) (files : Files) (path uri : Option Bytes) : Server :=
  { s with
    workspace := .start (s.workspace.number + 1) (rootOf path uri)
      (Template.manager (s.templates files)) }

/-- The server's answer to a greeting: it wants to be told the whole text of
documents, and to be asked when a dot is typed. -/
def greeting (s : Server) : Json :=
  .object
    [("capabilities", .object
      [("textDocumentSync", .object
        [("openClose", .bool true), ("change", .nat 1),
         ("save", .object [("includeText", .bool true)])]),
       ("completionProvider", .object [("triggerCharacters", .list [.str "."])])]),
     ("serverInfo", .object [("name", .str "postfix"), ("version", .str s.version)])]

/-- Change the workspace, if an address means a path. -/
def withPath (s : Server) (uri : Bytes) (f : Workspace → Bytes → Workspace) : Server :=
  match Uri.path? uri with
  | some path => { s with workspace := f s.workspace path }
  | none => s

/-- A document was opened. -/
def opened (s : Server) (uri text : Bytes) : Server :=
  s.withPath uri fun w path => w.update path text

/-- A document was changed. Only the last change counts, and only if it has the
whole text. -/
def changed (s : Server) (uri : Bytes) (changes : List Change) : Server :=
  match changes.getLast? with
  | some (.whole text) => s.opened uri text
  | _ => s

/-- A document was closed. -/
def closed (s : Server) (uri : Bytes) : Server :=
  s.withPath uri fun w path => w.remove path

/-- A document was saved. Without a text its file is read; if there is none,
nothing changes. -/
def saved (s : Server) (files : Files) (uri : Bytes) (text : Option Bytes) : Server :=
  s.withPath uri fun w path =>
    match text <|> (files.read path).toOption with
    | some text => w.update path text
    | none => w

/-- The completions at a place in a document; `none` if there are none. -/
def completions (s : Server) (uri : Bytes) (place : Source.EditorPosition) (force : Bool) :
    Option (List CompletionItem) := do
  let path ← Uri.path? uri
  let document ← s.workspace.get? path
  let line : Int := place.line + 1
  let column := Source.byteColumn document.content line place.character
  match s.workspace.proposalsAt path line column force with
  | .ok [] => none
  | .ok proposals => some (CompletionItem.ofProposals document.content proposals)
  | .error _ => none

end Server

/-- Looks after a settings file. -/
structure Watcher where
  path : Bytes
  /-- The number of the workspace that gets the templates. -/
  serves : Nat
  /-- When the file had been written when the watcher looked last. -/
  seen : Option Int
deriving DecidableEq, Repr

namespace Server

/-- A watcher of a file for the current workspace, which has not looked yet. -/
def watch (s : Server) (path : Bytes) : Watcher := ⟨path, s.workspace.number, none⟩

/-- The watcher of the settings file, which knows the file as it is now. Built-in
settings need none. -/
def watcher? (s : Server) (files : Files) : Option Watcher :=
  if s.settings.isEmpty then none
  else some { s.watch s.settings with seen := (files.get? s.settings).map StoredFile.modified }

/-- Give templates to a workspace, if it is still the current one. -/
def install (s : Server) (number : Nat) (templates : List Template) : Server :=
  if s.workspace.number = number then
    { s with workspace := { s.workspace with manager := Template.manager templates } }
  else s

/-- A watcher looks at its file. The last part tells whether there were new
templates; a file that cannot be loaded leaves the old ones in place. -/
def look (s : Server) (files : Files) (w : Watcher) : Server × Watcher × Bool :=
  match files.get? w.path with
  | none => (s, w, false)
  | some file =>
    if w.seen = some file.modified then (s, w, false)
    else
      let w := { w with seen := some file.modified }
      match Settings.load files w.path with
      | .ok templates => (s.install w.serves templates, w, true)
      | .error _ => (s, w, false)

end Server

end DotCompletion
