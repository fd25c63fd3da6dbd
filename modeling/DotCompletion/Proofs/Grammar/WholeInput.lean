import DotCompletion.Proofs.Grammar.Outline
import DotCompletion.Proofs.Grammar.Termination
import DotCompletion.Proofs.Token.Reading
import DotCompletion.Reading

/-!
# Every source is read to its end

The budget granted for a source suffices, so reading always gives a tree. A file
and a row of statements are read up to the end of the input, because their
outermost loops stop nowhere else; an expression ends where it ends.
-/

namespace DotCompletion

theorem Cursor.rest_eq_nil_of_eof {c : Cursor} {frame : Frame} (hsolid : c.Solid)
    (h : (Look.next [.eof]).holds frame c.rest = true) : c.rest = [] := by
  cases hrest : c.rest with
  | nil => rfl
  | cons t rest =>
      simp only [Look.holds, Skim.kindAt, hrest, List.getElem?_cons_zero, Option.map_some,
        Option.getD_some, List.contains_cons, List.contains_nil, Bool.or_false, beq_iff_eq] at h
      exact absurd h (hsolid t (by simp [hrest])).kind

namespace Rule

/-- The loops that stop at the end of the input only. -/
def readsAll : Rule → Bool
  | unitItems | statements [] => true
  | _ => false

/-- Such a loop is at the end when it stops. -/
def ReachesEnd : Behaviour := fun r _ c _ c' =>
  Cursor.Onward c c' ∧ (r.readsAll = true → c.Solid → c'.rest = [])

/-- A loop that asks for the end first, and otherwise goes on behind one item. -/
theorem rest_eq_nil_of_loop {item : Form} {again : Rule} {frame frame' : Frame} {c c' : Cursor}
    (hagain : again.readsAll = true) (hsolid : c.Solid)
    (h : Form.Does ReachesEnd (.choose (.next [.eof]) .done (item ++ .rule again))
      frame c frame' c') : c'.rest = [] := by
  rcases h with ⟨heof, _, rfl⟩ | ⟨_, middle, between, hitem, hrest⟩
  · exact Cursor.rest_eq_nil_of_eof hsolid heof
  · exact hrest.2 hagain ((hitem.onward fun _ _ _ _ _ h => h.1).solid hsolid)

theorem Reads.reachesEnd {r : Rule} {frame frame' : Frame} {c c' : Cursor}
    (h : r.Reads frame c frame' c') : ReachesEnd r frame c frame' c' := by
  refine h.induct ReachesEnd ?_
  intro r frame c frame' c' hform
  refine ⟨hform.onward fun _ _ _ _ _ h => h.1, fun hall hsolid => ?_⟩
  cases r with
  | unitItems => exact rest_eq_nil_of_loop rfl hsolid hform
  | statements closers =>
      cases closers with
      | nil => exact rest_eq_nil_of_loop rfl hsolid hform
      | cons => cases hall
  | _ => cases hall

end Rule

namespace Entry

/-- The budget granted for a source suffices. -/
theorem read?_isSome (entry : Entry) (source : Bytes) :
    ∃ frame c, entry.read? source = some (frame, c) := by
  have hleft := Cursor.left_ofSource_le source
  have hheight := entry.rule.height_lt (Cursor.ofSource source)
  refine Rule.run_ends [] (Cursor.ofSource_solid source) ?_
  unfold budget
  omega

theorem needs_nothing (entry : Entry) : Outline.Describes entry.rule.needs [] := by
  cases entry with
  | compilationUnit | statements => exact .nothing _
  | expression => exact .empty

/-- Reading a source makes one node. -/
theorem read?_eq_singleton {entry : Entry} {source : Bytes} {frame : Frame} {c : Cursor}
    (h : entry.read? source = some (frame, c)) : ∃ node, frame = [node] := by
  have hreads : entry.rule.Reads [] (Cursor.ofSource source) frame c := ⟨_, h⟩
  obtain ⟨hleaves, _⟩ := hreads.follows entry.needs_nothing Form.allShaped_nil
  have hone : ∃ kinds, entry.rule.leaves = some [kinds] := by
    cases entry <;> exact ⟨_, rfl⟩
  obtain ⟨kinds, hkinds⟩ := hone
  obtain ⟨node, frame', _, htail, rfl⟩ := List.forall₂_cons_left_iff.mp (hleaves _ hkinds)
  cases htail
  exact ⟨node, rfl⟩

/-- The tree of a source is what its rule reads. -/
theorem parse_eq {entry : Entry} {source : Bytes} {node : Node} {frame : Frame} {c : Cursor}
    (h : entry.rule.Reads [] (Cursor.ofSource source) (node :: frame) c) :
    entry.parse source = node := by
  obtain ⟨frame', c', hread⟩ := entry.read?_isSome source
  obtain ⟨rfl, -⟩ := h.unique ⟨_, hread⟩
  rw [parse, hread]

/-- A file and a row of statements are read to the end. -/
theorem rest_eq_nil {entry : Entry} {source : Bytes} {frame : Frame} {c : Cursor}
    (hentry : entry ≠ .expression) (h : entry.read? source = some (frame, c)) : c.rest = [] := by
  have hreads : entry.rule.Reads [] (Cursor.ofSource source) frame c := ⟨_, h⟩
  have hsolid := Cursor.ofSource_solid source
  cases entry with
  | compilationUnit =>
      obtain ⟨_, hitems, _⟩ := hreads.elim
      exact (Rule.Reads.reachesEnd hitems).2 rfl hsolid
  | statements =>
      obtain ⟨_, hitems, _⟩ := hreads.elim
      exact (Rule.Reads.reachesEnd hitems).2 rfl hsolid
  | expression => exact absurd rfl hentry

end Entry

/-- Reading ends for every source and gives a tree; behind a file or a row of
statements only the end of the input is left. Every rule ends in front of any
tokens, and none goes back. -/
theorem Reading.finish_reaches_end (source : Bytes) (file : String) :
    (∀ entry : Entry, ∃ node c, entry.read? source = some ([node], c) ∧
      (Reading.start entry file (some source)).finish.1 = some node ∧
      (entry ≠ .expression → c.rest = [] ∧ c.next = .endAt (Position.origin.advance source))) ∧
    (∀ (r : Rule) (frame : Frame) (c : Cursor), c.Solid →
      ∃ budget frame' c', r.run budget frame c = some (frame', c')) ∧
    (∀ budget (r : Rule) (frame frame' : Frame) (c c' : Cursor),
      r.run budget frame c = some (frame', c') → c.taken ≤ c'.taken) := by
  refine ⟨fun entry => ?_, fun r frame c hsolid => ?_, fun budget r frame frame' c c' hrun => ?_⟩
  · obtain ⟨frame, c, hread⟩ := entry.read?_isSome source
    obtain ⟨node, rfl⟩ := Entry.read?_eq_singleton hread
    refine ⟨node, c, hread, ?_, fun hentry => ?_⟩
    · rw [Entry.read?] at hread
      simp [Reading.start, Reading.finish, Reading.fetch, Reading.rewind, Reading.read,
        Reading.text, hread]
    · have hrest := Entry.rest_eq_nil hentry hread
      have heof := (Rule.Reads.onward ⟨_, hread⟩).eof
      refine ⟨hrest, ?_⟩
      rw [Cursor.next, hrest]
      exact heof
  · exact ⟨_, Rule.run_ends frame hsolid (Nat.lt_succ_self _)⟩
  · exact (Rule.Reads.onward ⟨budget, hrun⟩).taken_le

/-- A class whose type parameters are left open, in front of tokens that fit
nowhere. -/
theorem Reading.finish_of_open_type_parameters :
    ∃ node c,
      Entry.compilationUnit.read? (Bytes.ofString "class A<B<C>>> ) @ 0x ] .") =
        some ([node], c) ∧
      c.rest = [] ∧
      (Cursor.ofSource (Bytes.ofString "class A<B<C>>> ) @ 0x ] .")).taken ≤ c.taken ∧
      ∃ budget frame c', (Rule.typeArguments .typeArguments).run budget []
        (Cursor.ofSource (Bytes.ofString "class A<B<C>>> ) @ 0x ] .")) = some (frame, c') := by
  obtain ⟨hends, hrules, honward⟩ :=
    Reading.finish_reaches_end (Bytes.ofString "class A<B<C>>> ) @ 0x ] .") "A.java"
  obtain ⟨node, c, hread, _, hend⟩ := hends .compilationUnit
  refine ⟨node, c, hread, (hend (by decide)).1, honward _ _ _ _ _ _ hread, ?_⟩
  exact hrules _ _ _ (Cursor.ofSource_solid _)

end DotCompletion
