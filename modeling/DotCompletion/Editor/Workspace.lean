import DotCompletion.Completion.Request
import DotCompletion.Text.Path
import DotCompletion.Tree.Render

/-!
# Workspaces

A workspace holds the documents that an editor has open and the providers that
are asked for completions in them.
-/

namespace DotCompletion

/-- An open document. -/
structure Document where
  path : Bytes
  content : Bytes
  /-- The syntax of the document, read when it was stored. -/
  tree : Tree

namespace Document

/-- The document with a path and a content, which is read as a file. -/
def ofContent (path content : Bytes) : Document :=
  ⟨path, content, .parse .compilationUnit content⟩

/-- The name of the document without its directory. -/
def file (d : Document) : Bytes := Path.base d.path

end Document

/-- Why there is no answer to a question about a document. -/
inductive DocumentError where
  | notOpen (path : Bytes)
  | outside (position : InvalidPosition)
deriving DecidableEq, Repr

/-- The reason in words. -/
def DocumentError.message : DocumentError → Bytes
  | notOpen path => path ++ Bytes.ofString ": file not loaded"
  | outside position => Bytes.ofString position.message

/-- Open documents, and who is asked about them. -/
structure Workspace where
  /-- Tells apart the workspaces of one server. -/
  number : Nat
  /-- The directory of the project. -/
  root : Bytes
  /-- The open documents, no two of them with the same path. -/
  documents : List Document
  manager : Manager

namespace Workspace

/-- A workspace without documents. -/
def start (number : Nat) (root : Bytes) (manager : Manager) : Workspace :=
  ⟨number, root, [], manager⟩

/-- The document with a path. -/
def get? (w : Workspace) (path : Bytes) : Option Document :=
  w.documents.find? fun d => d.path == path

/-- The workspace without a document. -/
def remove (w : Workspace) (path : Bytes) : Workspace :=
  { w with documents := w.documents.filter fun d => d.path != path }

/-- The workspace with a document of the given content. -/
def update (w : Workspace) (path content : Bytes) : Workspace :=
  { w with documents := .ofContent path content :: (w.remove path).documents }

/-- The proposals at a place in a document. -/
def proposalsAt (w : Workspace) (path : Bytes) (line column : Int) (force : Bool) :
    Except DocumentError (List Proposal) :=
  match w.get? path with
  | none => .error (.notOpen path)
  | some d =>
    (Request.complete ⟨.compilationUnit, line, column, force⟩ w.manager d.content).mapError
      .outside

end Workspace

end DotCompletion
