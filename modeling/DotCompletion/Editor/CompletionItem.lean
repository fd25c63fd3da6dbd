import DotCompletion.Completion.Proposal
import DotCompletion.Source.Units
import DotCompletion.Text.Json

/-!
# Completion items

A proposal in the form that editors expect: an edit of the document together
with texts by which the editor sorts and filters. An editor keeps an item while
what the user has typed fits its filter text, which is therefore the replaced
text up to the dot followed by the name of the template.
-/

namespace DotCompletion

/-- A change of a document: a range, and the text to put there. -/
structure TextEdit where
  start : Source.EditorPosition
  stop : Source.EditorPosition
  newText : Bytes
deriving DecidableEq, Repr

/-- One entry of an editor's list of completions. -/
structure CompletionItem where
  label : String
  detail : String
  documentation : Option String
  sortText : String
  filterText : Bytes
  edit : TextEdit
deriving DecidableEq, Repr

namespace CompletionItem

/-- A number written with at least four digits, so that texts sort like
numbers. -/
def sortKey (n : Nat) : String :=
  let digits := toString n
  String.ofList (List.replicate (4 - digits.length) '0') ++ digits

/-- The text up to its last dot, with the dot; nothing if there is none. -/
def upToDot (text : Bytes) : Bytes :=
  (text.reverse.dropWhile (· != '.'.toUInt8)).reverse

/-- The place of a position in a document. -/
def place (content : Bytes) (p : Position) : Source.EditorPosition :=
  Source.editorPosition content p.line p.column

/-- The proposal with the given number as an item. -/
def ofProposal (content : Bytes) (number : Nat) (p : Proposal) : CompletionItem where
  label := p.label
  detail := p.detail
  documentation := if p.documentation = "" then none else some p.documentation
  sortText := sortKey number
  filterText := upToDot (p.replace.text content) ++ Bytes.ofString p.label
  edit := ⟨place content p.replace.start, place content p.replace.stop, p.snippet⟩

/-- The proposals as items, in the same order. -/
def ofProposals (content : Bytes) (proposals : List Proposal) : List CompletionItem :=
  proposals.mapIdx (ofProposal content)

/-- The number by which editors know snippets among items. -/
def snippetKind : Nat := 15

/-- The number by which editors know texts with placeholders. -/
def snippetFormat : Nat := 2

/-- A place as editors read it. -/
def placeJson (p : Source.EditorPosition) : Json :=
  .object [("line", .nat p.line), ("character", .nat p.character)]

/-- An item as editors read it. -/
def toJson (i : CompletionItem) : Json :=
  .object (
    [("label", .str i.label), ("kind", .nat snippetKind), ("detail", .str i.detail)]
    ++ (i.documentation.map fun text => ("documentation", Json.str text)).toList
    ++ [("sortText", .str i.sortText), ("filterText", .text i.filterText),
        ("insertTextFormat", .nat snippetFormat),
        ("textEdit", .object
          [("range", .object [("start", placeJson i.edit.start), ("end", placeJson i.edit.stop)]),
           ("newText", .text i.edit.newText)])])

end CompletionItem

end DotCompletion
