import DotCompletion.Editor.Server
import DotCompletion.Proofs.Completion.ReplaceRange
import DotCompletion.Proofs.Grammar.Edges
import DotCompletion.Proofs.Source.Units
import DotCompletion.Proofs.Token.Seams

/-!
# Edits hit what proposals replace

An editor gives a place by its line and UTF-16 units, and gets edits with places of the same
sort. In between stand byte columns of the document and offsets in a patched copy of it. No
conversion loses anything: the edit of each item ends where completion was asked for, and begins
where the proposal says (`Server.completions_hit`). The document may hold any bytes, as long as
the place asked for cuts no character: nodes begin where tokens do, and tokens cut none. Places
are told in numbers of 32 bits, so a proposal that begins on an earlier line has to have fewer
units in front of it there.
-/

namespace DotCompletion

open Source (EditorPosition)
open Request (patch dummy)

namespace Position

variable {source : Bytes} {p : Position}

/-- More bytes lead to a later line, or further on the same one. -/
theorem line_lt_or_column_le (p : Position) (bytes : Bytes) :
    p.line < (p.advance bytes).line ∨
      p.line = (p.advance bytes).line ∧ p.column ≤ (p.advance bytes).column := by
  induction bytes generalizing p with
  | nil => exact .inr ⟨rfl, Nat.le_refl _⟩
  | cons b rest ih =>
      change p.line < ((p.step b).advance rest).line ∨
        p.line = ((p.step b).advance rest).line ∧ p.column ≤ ((p.step b).advance rest).column
      have hrest := ih (p.step b)
      generalize (p.step b).advance rest = q at hrest ⊢
      unfold step at hrest
      split at hrest
      next =>
          simp only at hrest
          omega
      next =>
          simp only at hrest
          omega

/-- In front of the cursor no character is cut in the source where none is cut in a patched
copy. -/
theorem AtSeam.of_patched {rest : Bytes} {offset : Nat}
    (h : p.AtSeam (source.take offset ++ rest)) (hlt : p.offset < offset)
    (hoffset : offset ≤ source.length) : p.AtSeam source := by
  obtain ⟨before, behind, heq, rfl, hseam⟩ := h
  rw [origin_advance_offset] at hlt
  have hlength : (source.take offset).length = offset := by rw [List.length_take]; omega
  rcases List.append_eq_append_iff.mp heq with ⟨more, rfl, -⟩ | ⟨middle, hfront, rfl⟩
  · rw [List.length_append] at hlt
    omega
  · have hmiddle : middle ≠ [] := by
      rintro rfl
      rw [List.append_nil] at hfront
      rw [hfront] at hlength
      omega
    refine ⟨before, middle ++ source.drop offset, ?_, rfl, ?_⟩
    · rw [← List.append_assoc, ← hfront, List.take_append_drop]
    · exact (hseam.of_shorter (List.prefix_append _ _)).append_right hmiddle _

/-- The edges of tokens, and the end of a source, cut no character. -/
theorem holdsAtEdges_atSeam (source : Bytes) : HoldsAtEdges source (AtSeam source) where
  part := fun _ ht => ht.atSeam
  stop := atSeam_end source

end Position

namespace TextEdit

/-- The document behind the edit; `none` if one of the places is none of the document. -/
def result? (e : TextEdit) (content : Bytes) : Option Bytes :=
  match e.start.offset? content, e.stop.offset? content with
  | some start, some stop => some (content.take start ++ e.newText ++ content.drop stop)
  | _, _ => none

end TextEdit

namespace CompletionItem

/-- The number of units in front of a position can be told: they fit 32 bits, or the position is on
the line of a place that an editor has told. -/
def CanTell (content : Bytes) (place : EditorPosition) (p : Position) : Prop :=
  p.line ≤ place.line → Source.unitsBefore content p < 0x100000000

/-- In a document whose bytes are counted in 32 bits every number of units can be told. -/
theorem canTell_of_length {content : Bytes} (h : content.length < 0x100000000)
    (place : EditorPosition) (p : Position) : CanTell content place p :=
  fun _ => Nat.lt_of_le_of_lt (Source.unitsBefore_le_length content p) h

/-- The edit of the item ends at the place, begins where the proposal begins, and puts the
snippet in place of what stands between there and the cursor. -/
structure Hits (content : Bytes) (place : EditorPosition) (cursor : Nat) (item : CompletionItem)
    (p : Proposal) : Prop where
  stop : item.edit.stop = place
  start : CanTell content place p.replace.start →
    item.edit.start.offset? content = some p.replace.start.offset
  start_le : p.replace.start.offset ≤ cursor
  applied : CanTell content place p.replace.start →
    item.edit.result? content =
      some (content.take p.replace.start.offset ++ p.snippet ++ content.drop cursor)

/-- The place where completion was asked for is told to the editor as the editor told it. -/
theorem place_of_request {content : Bytes} {place : EditorPosition} (h : place.Between content)
    (hfits : place.Fits) (offset : Nat) :
    CompletionItem.place content ⟨offset, ((place.line : Int) + 1).toNat,
      (Source.byteColumn content (place.line + 1) place.character : Int).toNat⟩ = place := by
  have hnumber : ((((place.line : Int) + 1).toNat : Nat) : Int) = place.line + 1 := by omega
  rw [CompletionItem.place, hnumber, Int.toNat_natCast]
  exact h.editorPosition hfits

theorem hits_of_places {content : Bytes} {place : EditorPosition} {cursor : Nat} {p : Proposal}
    (hcursor : place.offset? content = some cursor)
    (hstop : CompletionItem.place content p.replace.stop = place)
    (hstart : CanTell content place p.replace.start →
      (CompletionItem.place content p.replace.start).offset? content =
        some p.replace.start.offset)
    (hle : p.replace.start.offset ≤ cursor) (number : Nat) :
    Hits content place cursor (ofProposal content number p) p where
  stop := hstop
  start := hstart
  start_le := hle
  applied htell := by
    rw [TextEdit.result?]
    simp only [ofProposal, hstart htell, hstop, hcursor]

theorem forall₂_ofProposals {content : Bytes} {R : CompletionItem → Proposal → Prop}
    {proposals : List Proposal} (h : ∀ p ∈ proposals, ∀ number, R (ofProposal content number p) p) :
    List.Forall₂ R (ofProposals content proposals) proposals := by
  rw [ofProposals, List.forall₂_iff_get]
  refine ⟨List.length_mapIdx, fun i hi hi' => ?_⟩
  rw [List.get_eq_getElem, List.get_eq_getElem, List.getElem_mapIdx]
  exact h _ (List.getElem_mem hi') i

end CompletionItem

namespace Request

/-- A node of the patched source that begins at the cursor at the latest begins at a place that
an editor finds again. -/
theorem offset?_start {r : Request} {source : Bytes} {place : EditorPosition} {cursor id : Nat}
    {n : Node} {above : List (Nat × Node)} (hplace : place.Between source) (hfits : place.Fits)
    (hcursor : Source.offset? source (place.line + 1)
      (Source.byteColumn source (place.line + 1) place.character) = some cursor)
    (hn : Node.Numbered (r.entry.parse (patch source cursor)) id n above) (hle : n.lo ≤ cursor)
    (htell : CompletionItem.CanTell source place n.span.start) :
    (CompletionItem.place source n.span.start).offset? source = some n.span.start.offset := by
  have hlength := Source.offset?_le hcursor
  have hspot := Source.place_of_offset? hcursor
  obtain ⟨behind, hpatch⟩ := exists_patch_eq source cursor
  have hedges := (hn.every (Entry.parse_edges (Position.holdsAtEdges_atSeam _) r.entry)).own
  rw [hpatch] at hedges
  rcases Nat.lt_or_eq_of_le hle with hlt | heq
  · obtain ⟨before, back, rfl, hstart, hseam⟩ := hedges.1.of_patched hlt hlength
    have hline := hfits.line
    rw [hstart] at htell
    rw [Node.lo, hstart, Position.origin_advance_offset] at hlt
    rw [List.take_append, List.take_of_length_le (Nat.le_of_lt hlt), Position.advance_append]
      at hspot
    have horder := (Position.origin.advance before).line_lt_or_column_le
      (back.take (cursor - before.length))
    rw [hspot] at horder
    simp only at horder
    rw [hstart, Position.origin_advance_offset]
    refine Source.offset?_editorPosition hseam (by omega) ?_
    by_cases hearlier : (Position.origin.advance before).line ≤ place.line
    · exact htell hearlier
    · -- on the line of the request no more units stand in front than in front of the cursor
      have hunits := Source.unitsBefore_le hseam hplace (by omega) (by omega)
      exact Nat.lt_of_le_of_lt hunits hfits.character
  · have hin := in_of_patched hedges.1.position_in (Nat.le_of_eq heq) hlength
    have hstart : n.span.start = _ := hin.eq_advance_take.trans
      ((congrArg (fun o => Position.origin.advance (source.take o)) heq).trans hspot)
    rw [hstart, CompletionItem.place_of_request hplace hfits]
    exact hcursor

end Request

namespace Server

/-- Whatever bytes a document holds: each item's edit replaces exactly what its proposal
replaces, up to the place where completion was asked for, if the editor can be told where the
proposal begins. -/
theorem completions_hit {s : Server} {templates : List Template} {uri path : Bytes}
    {document : Document} {place : EditorPosition}
    (hmanager : s.workspace.manager = Template.manager templates)
    (hpath : Uri.path? uri = some path) (hdocument : s.workspace.get? path = some document)
    (hplace : place.Between document.content) (hfits : place.Fits) (force : Bool) :
    ∃ cursor proposals, place.offset? document.content = some cursor ∧
      s.workspace.proposalsAt path (place.line + 1)
        (Source.byteColumn document.content (place.line + 1) place.character) force =
          .ok proposals ∧
      s.completions uri place force = (if proposals = [] then none
        else some (CompletionItem.ofProposals document.content proposals)) ∧
      List.Forall₂ (CompletionItem.Hits document.content place cursor)
        (CompletionItem.ofProposals document.content proposals) proposals := by
  obtain ⟨start, column, -, -, -, hcursor⟩ := hplace.exists_offset
  generalize start + column = cursor at hcursor
  obtain ⟨proposals, hok, hall⟩ := Request.exists_node_of_complete
    ⟨.compilationUnit, place.line + 1,
      Source.byteColumn document.content (place.line + 1) place.character, force⟩ templates hcursor
  have hproposals : s.workspace.proposalsAt path (place.line + 1)
      (Source.byteColumn document.content (place.line + 1) place.character) force =
        .ok proposals := by
    rw [Workspace.proposalsAt, hdocument, hmanager]
    simp only [hok]
    rfl
  refine ⟨cursor, proposals, hcursor, hproposals, ?_, ?_⟩
  · simp only [completions, hpath, hdocument, Option.bind_eq_bind, Option.bind_some, hproposals]
    cases proposals <;> simp
  · refine CompletionItem.forall₂_ofProposals fun p hp => ?_
    obtain ⟨id, n, above, hn, hle, hreplace⟩ := hall p hp
    refine CompletionItem.hits_of_places hcursor ?_ ?_ ?_
    · rw [hreplace]
      exact CompletionItem.place_of_request hplace hfits cursor
    · rw [hreplace]
      exact Request.offset?_start hplace hfits hcursor hn hle
    · rw [hreplace]
      exact hle

/-- A document that ends in a sum which is still being written, on two lines. The name of the class
is a surrogate pair, and the first operand is a character of two bytes. -/
def halfSum : Bytes := Bytes.ofString "class 𝐀 \x7b int x = é\n+b."

/-- A server with one open document. -/
def halfWritten : Server :=
  { start "" [] with
    workspace := ⟨1, [], [.ofContent (Bytes.ofString "A") halfSum],
      Template.manager
        [{ Template.blank with name := "par", outermost := true, body := "($expr)" }]⟩ }

theorem completions_hit_halfWritten :
    ∃ cursor proposals, halfWritten.completions (Bytes.ofString "A") ⟨1, 3⟩ true =
        some (CompletionItem.ofProposals halfSum proposals) ∧
      (CompletionItem.ofProposals halfSum proposals).map (·.edit.start) = [⟨0, 19⟩] ∧
      List.Forall₂ (fun item p => item.edit.result? halfSum =
          some (halfSum.take p.replace.start.offset ++ p.snippet ++ halfSum.drop cursor))
        (CompletionItem.ofProposals halfSum proposals) proposals := by
  have hbetween : EditorPosition.Between halfSum ⟨1, 3⟩ := by
    refine ⟨by decide +kernel, Utf8.pieces (Bytes.ofString "+b."), [], ?_, ?_⟩
    · rw [List.append_nil]
      decide +kernel
    · decide +kernel
  have hfits : EditorPosition.Fits ⟨1, 3⟩ := ⟨by decide, by decide⟩
  have hmanager : halfWritten.workspace.manager = Template.manager
      [{ Template.blank with name := "par", outermost := true, body := "($expr)" }] := rfl
  have hpath : Uri.path? (Bytes.ofString "A") = some (Bytes.ofString "A") := by decide +kernel
  have hdocument : halfWritten.workspace.get? (Bytes.ofString "A") =
      some (.ofContent (Bytes.ofString "A") halfSum) := rfl
  obtain ⟨cursor, proposals, -, -, hcompletions, hhits⟩ :=
    completions_hit hmanager hpath hdocument hbetween hfits true
  have hstarts : (halfWritten.completions (Bytes.ofString "A") ⟨1, 3⟩ true).map
      (fun items => items.map (·.edit.start)) = some [⟨0, 19⟩] := by decide +kernel
  have hne : proposals ≠ [] := by
    rintro rfl
    rw [hcompletions] at hstarts
    cases hstarts
  rw [if_neg hne] at hcompletions
  rw [hcompletions] at hstarts
  have htell := @CompletionItem.canTell_of_length halfSum (by decide +kernel) ⟨1, 3⟩
  exact ⟨cursor, proposals, hcompletions, Option.some_inj.mp hstarts,
    hhits.imp fun _ p hhit => hhit.applied (htell p.replace.start)⟩

end Server

end DotCompletion
