import DotCompletion.Reading

/-!
# Sessions have no memory

What a session answers depends on the input it was given last, and on whether a
tree of it was asked for since. The tokens that an earlier tree left behind, cut
and partly read, are never looked at again: `Reading.Standing` says nothing of
them, and every call preserves it.
-/

namespace DotCompletion

/-- What is asked of a session. -/
inductive Call where
  /-- The tree of the current input. -/
  | finish
  /-- What was fetched. -/
  | source
  /-- To go on with another input, which may be one that cannot be fetched. -/
  | reset (input : Option Bytes)

namespace Call

/-- The input a session has after some calls, given the one it began with. -/
def current (input : Option Bytes) : List Call → Option Bytes
  | [] => input
  | reset input :: calls => current input calls
  | _ :: calls => current input calls

/-- A tree was asked for since the last input was given, or before all calls if
`asked` says so. -/
def asked (before : Bool) : List Call → Bool
  | [] => before
  | finish :: calls => asked true calls
  | source :: calls => asked before calls
  | reset _ :: calls => asked false calls

end Call

namespace Reading

/-- The session after a call. -/
def after (r : Reading) : Call → Reading
  | .finish => r.finish.2
  | .source => r
  | .reset input => r.reset input

/-- A session for `entry` and `file` whose input is `input`, and that was `asked`
for a tree of it. Nothing is said of the tokens. -/
structure Standing (entry : Entry) (file : String) (input : Option Bytes) (asked : Bool)
    (r : Reading) : Prop where
  entry_eq : r.entry = entry
  file_eq : r.file = file
  input_eq : r.input = input
  source_eq : r.source = if asked then input else none
  fetched_eq : r.fetched = r.source.isSome

variable {entry : Entry} {file : String} {input : Option Bytes} {asked : Bool} {r : Reading}

theorem start_standing (entry : Entry) (file : String) (input : Option Bytes) :
    (start entry file input).Standing entry file input false :=
  ⟨rfl, rfl, rfl, rfl, rfl⟩

/-- The tree is that of the source; only the tokens are touched. -/
theorem exists_read_rewind (r : Reading) :
    ∃ cursor, r.rewind.read = (r.entry.parse r.text, { r with cursor }) := by
  have hrun : r.rewind.entry.rule.run (Entry.budget r.rewind.text) [] r.rewind.cursor =
      r.entry.read? r.text := rfl
  rw [read, hrun, Entry.parse]
  cases r.entry.read? r.text with
  | none => exact ⟨_, rfl⟩
  | some result =>
      obtain ⟨nodes, behind⟩ := result
      cases nodes with
      | nil => exact ⟨_, rfl⟩
      | cons node rest => exact ⟨_, rfl⟩

namespace Standing

/-- Of an input that cannot be fetched there is nothing, however often it was asked for. -/
theorem source_eq_none (h : r.Standing entry file none asked) : r.source = none := by
  rw [h.source_eq]
  split <;> rfl

theorem fetch_eq_none (h : r.Standing entry file none asked) : r.fetch = none := by
  rw [fetch, h.fetched_eq, h.source_eq_none, h.input_eq]
  rfl

/-- An input is fetched now or was fetched before. -/
theorem exists_fetch {source : Bytes} (h : r.Standing entry file (some source) asked) :
    ∃ fetched, r.fetch = some fetched ∧ fetched.Standing entry file (some source) true := by
  cases hfetched : r.fetched with
  | true =>
      refine ⟨r, by rw [fetch, hfetched, if_pos rfl], { h with source_eq := ?_ }⟩
      have hsource := h.source_eq
      have hsome := h.fetched_eq
      rw [hfetched] at hsome
      cases asked with
      | true => exact hsource
      | false =>
          rw [hsource] at hsome
          cases hsome
  | false =>
      refine ⟨{ r with fetched := true, source := some source }, ?_,
        { h with source_eq := rfl, fetched_eq := rfl }⟩
      rw [fetch, hfetched, h.input_eq]
      rfl

/-- A tree is that of the input, whatever was asked before. -/
theorem finish (h : r.Standing entry file input asked) :
    r.finish.1 = input.map entry.parse ∧ r.finish.2.Standing entry file input true := by
  cases input with
  | none =>
      rw [Reading.finish, h.fetch_eq_none]
      exact ⟨rfl, { h with source_eq := h.source_eq_none }⟩
  | some source =>
      obtain ⟨fetched, hfetch, hfetched⟩ := h.exists_fetch
      obtain ⟨cursor, hread⟩ := exists_read_rewind fetched
      have htext : fetched.text = source := by
        rw [text, hfetched.source_eq]
        rfl
      rw [hfetched.entry_eq, htext] at hread
      rw [Reading.finish, hfetch]
      simp only [hread]
      exact ⟨rfl, { hfetched with entry_eq := rfl }⟩

/-- Every call preserves what is said of the session. -/
theorem after (h : r.Standing entry file input asked) (call : Call) :
    (r.after call).Standing entry file (Call.current input [call]) (Call.asked asked [call]) := by
  cases call with
  | finish => exact h.finish.2
  | source => exact h
  | reset input' => exact ⟨h.entry_eq, h.file_eq, rfl, rfl, rfl⟩

theorem run (h : r.Standing entry file input asked) (calls : List Call) :
    (calls.foldl Reading.after r).Standing entry file (Call.current input calls)
      (Call.asked asked calls) := by
  induction calls generalizing r input asked with
  | nil => exact h
  | cons call calls ih =>
      have hcalls := ih (h.after call)
      cases call <;> exact hcalls

end Standing

/-- Whatever was asked of a session, its next tree is the one of a new session for the same file
and the current input, and none exactly if that input cannot be fetched. Its source is the current
input once a tree of it was read, and none before. A second tree is equal to the first, which left
its tokens behind. -/
theorem finish_after_calls (entry : Entry) (file : String) (input : Option Bytes)
    (calls : List Call) :
    (calls.foldl after (start entry file input)).finish.1 =
      (start entry file (Call.current input calls)).finish.1 ∧
    (start entry file (Call.current input calls)).finish.1 =
      (Call.current input calls).map entry.parse ∧
    (calls.foldl after (start entry file input)).file = file ∧
    (calls.foldl after (start entry file input)).source =
      (if Call.asked false calls then Call.current input calls else none) ∧
    (calls.foldl after (start entry file input)).finish.2.source = Call.current input calls ∧
    (calls.foldl after (start entry file input)).finish.2.finish.1 =
      (calls.foldl after (start entry file input)).finish.1 := by
  have hnew := start_standing entry file (Call.current input calls)
  have hstanding := (start_standing entry file input).run calls
  obtain ⟨htree, hfinished⟩ := hstanding.finish
  exact ⟨htree.trans hnew.finish.1.symm, hnew.finish.1, hstanding.file_eq, hstanding.source_eq,
    hfinished.source_eq, hfinished.finish.1.trans htree.symm⟩

/-- A tree uses up its tokens: a second one would find none without going back to them. -/
example : (start .statements "" (some (Bytes.ofString "A<B<C>> x;"))).finish.2.cursor.rest = [] := by
  decide +kernel

end Reading

end DotCompletion
