import DotCompletion.CommandLine.Flags
import DotCompletion.CommandLine.LinePosition
import DotCompletion.Completion.Request
import DotCompletion.Node.Json
import DotCompletion.Settings.Load
import DotCompletion.Template.Expansion
import DotCompletion.Text.Decimal
import DotCompletion.Tree.Render

/-!
# Commands

The program lists the completions at a position of a file, shows the syntax of a
file, lists the templates, or serves an editor. A command reads the files it
needs from a store and either fails or says what to print.
-/

namespace DotCompletion

/-- What the program can be asked to do. -/
inductive Command where
  | complete
  | parse
  | templates
  | serve
deriving DecidableEq, Repr

/-- Why a command fails. -/
inductive Failure where
  | usage (e : UsageError)
  | unreadable (e : FileError)
  | position (e : LinePosition.Malformed)
  | settings (e : Settings.LoadError)
  | outside (e : InvalidPosition)
deriving DecidableEq, Repr

/-- The reason in words. -/
def Failure.message : Failure → Bytes
  | usage e => Bytes.ofString e.message
  | unreadable e => Bytes.ofString "read java file: " ++ e.message
  | position e => Bytes.ofString e.message
  | settings e => e.message
  | outside e => Bytes.ofString e.message

/-- What is to be done when a command succeeds. -/
inductive Effect where
  | print (output : Bytes)
  /-- Serve an editor with the settings of a file. -/
  | serve (settings : Bytes)
deriving DecidableEq, Repr

namespace Command

/-- The command with a name. -/
def ofName? : String → Option Command
  | "complete" => some complete
  | "parse" => some parse
  | "templates" => some templates
  | "lsp" => some serve
  | _ => none

/-- The flags of a command. -/
def flags : Command → List Flag
  | complete =>
    [⟨"templates", .text, none⟩, ⟨"force", .switch, none⟩, ⟨"json", .switch, none⟩,
     ⟨"statements", .switch, none⟩]
  | parse => [⟨"json", .switch, none⟩, ⟨"statements", .switch, none⟩]
  | templates => [⟨"templates", .text, none⟩, ⟨"dump", .switch, none⟩]
  | serve => [⟨"templates", .text, none⟩]

/-- The number of arguments of a command, if it is fixed. -/
def arity? : Command → Option Nat
  | complete => some 2
  | parse => some 1
  | templates | serve => none

/-- Read the words behind a command's name. Some flags are understood by all
commands. -/
def read (c : Command) (common : List Flag) (words : List String) :
    Except UsageError CommandLine := do
  let line ← CommandLine.read (c.flags ++ common) words
  match c.arity? with
  | some n =>
    if line.arguments.length = n then pure line
    else throw (.wrongCount n line.arguments.length)
  | none => pure line

/-- How a file is read: as statements if the user says so. -/
def entry (l : CommandLine) : Entry :=
  if l.switch "statements" then .statements else .compilationUnit

/-- A line of text. -/
def line (text : String) : Bytes := Bytes.ofString (text ++ "\n")

/-- A field that is left out if it is empty. -/
def optional (name value : String) : List (String × Json) :=
  if value = "" then [] else [(name, .str value)]

/-- A proposal for programs to read. -/
def proposalJson (source : Bytes) (p : Proposal) : Json :=
  .object (
    [("label", .str p.label)] ++ optional "detail" p.detail
    ++ optional "example" p.documentation
    ++ [("snippet", .text p.snippet), ("replace", .text (p.replace.text source)),
        ("start", .str p.replace.start.render), ("end", .str p.replace.stop.render),
        ("provider", .str p.provider)])

/-- A proposal for people to read. -/
def proposalLine (source : Bytes) (p : Proposal) : Bytes :=
  line (Decimal.padRight 12 p.label ++ " " ++ p.replace.start.render ++ "-"
    ++ p.replace.stop.render ++ " " ++ Quoted.quote (p.replace.text source) ++ " -> "
    ++ Quoted.quote p.snippet)

/-- A template in the list of templates. -/
def templateLine (m : Metadata) : Bytes :=
  line (Decimal.padRight 14 m.name ++ " " ++ Decimal.padRight 48 m.description ++ " " ++ m.sample)

/-- The content of a file. -/
def readFile (files : Files) (path : String) : Except Failure Bytes :=
  (files.read (Bytes.ofString path)).mapError .unreadable

/-- The templates that the user wants. -/
def readTemplates (files : Files) (l : CommandLine) : Except Failure (List Template) :=
  (Settings.loadOrBuiltIn files (Bytes.ofString (l.text "templates"))).mapError .settings

/-- List the completions at a position of a file. -/
def runComplete (files : Files) (l : CommandLine) (path place : String) :
    Except Failure Effect := do
  let source ← readFile files path
  let p ← (LinePosition.parse place).mapError .position
  let templates ← readTemplates files l
  let request : Request := ⟨entry l, p.line, p.column, l.switch "force"⟩
  let proposals ← (request.complete (Template.manager templates) source).mapError .outside
  pure (.print (
    if l.switch "json" then line (Json.list (proposals.map (proposalJson source))).pretty
    else proposals.flatMap (proposalLine source)))

/-- Show the syntax of a file. -/
def runParse (files : Files) (l : CommandLine) (path : String) : Except Failure Effect := do
  let source ← readFile files path
  let node := (entry l).parse source
  pure (.print (
    if l.switch "json" then line node.toJson.pretty
    else (Tree.ofNode source (some node)).render))

/-- List the templates, or show the built-in settings. -/
def runTemplates (files : Files) (l : CommandLine) : Except Failure Effect := do
  if l.switch "dump" then pure (.print (Bytes.ofString Settings.builtInText))
  else
    let templates ← readTemplates files l
    pure (.print ((Template.manager templates).registrations.flatMap fun r =>
      templateLine r.metadata))

/-- Check the settings and serve an editor with them. -/
def runServe (files : Files) (l : CommandLine) : Except Failure Effect := do
  let _ ← readTemplates files l
  pure (.serve (Bytes.ofString (l.text "templates")))

/-- Do what a command line says. -/
def perform (c : Command) (files : Files) (l : CommandLine) : Except Failure Effect :=
  match c, l.arguments with
  | .complete, [path, place] => runComplete files l path place
  | .parse, [path] => runParse files l path
  | .complete, words => .error (.usage (.wrongCount 2 words.length))
  | .parse, words => .error (.usage (.wrongCount 1 words.length))
  | .templates, _ => runTemplates files l
  | .serve, _ => runServe files l

/-- Run a command on the words behind its name. -/
def run (c : Command) (files : Files) (common : List Flag) (words : List String) :
    Except Failure Effect := do
  let l ← (c.read common words).mapError .usage
  c.perform files l

end Command

end DotCompletion
