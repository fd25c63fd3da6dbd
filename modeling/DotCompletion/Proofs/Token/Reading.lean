import Mathlib.Algebra.Order.BigOperators.Group.List
import Mathlib.Algebra.Order.Ring.Nat
import DotCompletion.Proofs.Grammar.Progress

/-!
# The tokens of a source

Reading loses no byte: the texts of the tokens, put together, are the source.
Each token is what the scanner finds where the token starts, so a row of tokens
can be cut anywhere and what follows is again a reading, of the bytes that are
left (`Token.read_eq_append`).
-/

namespace DotCompletion

theorem Bytes.after?_eq_some {lead bytes rest : Bytes} :
    Bytes.after? lead bytes = some rest ↔ bytes = lead ++ rest := by
  unfold Bytes.after?
  constructor
  · intro h
    split at h
    next hlead =>
        cases h
        obtain ⟨tail, rfl⟩ := List.isPrefixOf_iff_prefix.mp hlead
        rw [List.drop_left]
    next => cases h
  · rintro rfl
    rw [if_pos (List.isPrefixOf_iff_prefix.mpr (List.prefix_append _ _)), List.drop_left]

namespace TokenKind

/-- What is found in a table of spellings is one of its kinds, spelled as it
should be. -/
theorem mem_of_lookup {kinds : List TokenKind} {text : Bytes} {kind : TokenKind}
    (h : (kinds.map fun k => (Bytes.ofString k.name, k)).lookup text = some kind) :
    kind ∈ kinds ∧ text = Bytes.ofString kind.name := by
  obtain ⟨before, behind, hsplit, _⟩ := List.lookup_eq_some_iff.mp h
  have hmem : (text, kind) ∈ kinds.map fun k => (Bytes.ofString k.name, k) := by simp [hsplit]
  obtain ⟨k, hk, heq⟩ := List.mem_map.mp hmem
  cases heq
  exact ⟨hk, rfl⟩

theorem ofWord_mem (word : Bytes) : ofWord word ∈ identifier :: words := by
  unfold ofWord
  cases hfound : wordSpellings.lookup word with
  | none => exact List.mem_cons_self
  | some kind => exact List.mem_cons_of_mem _ (mem_of_lookup hfound).1

theorem ofSign_mem (sign : Bytes) : ofSign sign ∈ error :: signs := by
  unfold ofSign
  cases hfound : signSpellings.lookup sign with
  | none => exact List.mem_cons_self
  | some kind => exact List.mem_cons_of_mem _ (mem_of_lookup hfound).1

end TokenKind

namespace Scan

theorem sign?_eq_some {input : Bytes} {signs : List (Bytes × TokenKind)}
    {found : TokenKind × Bytes} (h : sign? input signs = some found) :
    ∃ spelling, (spelling, found.1) ∈ signs ∧ input = spelling ++ found.2 := by
  induction signs with
  | nil => cases h
  | cons s signs ih =>
      obtain ⟨spelling, kind⟩ := s
      rw [sign?] at h
      split at h
      next rest hrest =>
          cases h
          exact ⟨spelling, List.mem_cons_self, Bytes.after?_eq_some.mp hrest⟩
      next =>
          obtain ⟨spelling', hmem, hinput⟩ := ih h
          exact ⟨spelling', List.mem_cons_of_mem _ hmem, hinput⟩

/-- The kinds of tokens that are not signs. -/
def otherKinds : List TokenKind :=
  [.error, .whitespace, .comment, .lineComment, .intLiteral, .floatLiteral, .charLiteral,
   .stringLiteral, .textBlock, .kwNonSealed] ++ .identifier :: TokenKind.words

theorem hexEnd_kind (isFloat : Bool) (rest : Bytes) :
    (hexEnd isFloat rest).1 ∈ [TokenKind.intLiteral, .floatLiteral] := by
  unfold hexEnd
  split <;> simp

theorem decimalEnd_kind (isFloat : Bool) (rest : Bytes) :
    (decimalEnd isFloat rest).1 ∈ [TokenKind.intLiteral, .floatLiteral] := by
  unfold decimalEnd
  split
  next => simp
  next => split <;> simp

theorem number_kind (b : UInt8) (rest : Bytes) :
    (number b rest).1 ∈ [TokenKind.intLiteral, .floatLiteral] := by
  unfold number
  split
  next => exact hexEnd_kind _ _
  next =>
      split
      next => simp [binaryNumber]
      next => exact decimalEnd_kind _ _

theorem word_kind (input : Bytes) :
    (word input).1 ∈ .kwNonSealed :: .identifier :: TokenKind.words := by
  unfold word
  simp only
  split
  next =>
      split
      next => exact List.mem_cons_self
      next => exact List.mem_cons_of_mem _ (TokenKind.ofWord_mem _)
  next => exact List.mem_cons_of_mem _ (TokenKind.ofWord_mem _)

/-- A token is a sign found in the table of signs, or of a kind of its own. -/
theorem token_kind_or_sign (b : UInt8) (rest : Bytes) :
    (token b rest).1 ∈ otherKinds ∨
      sign? (b :: rest) TokenKind.signSpellings = some (token b rest) := by
  unfold token
  split
  next => exact .inl (by simp [otherKinds])
  split
  next => exact .inl (by simp [otherKinds])
  split
  next => exact .inl (by simp [otherKinds])
  split
  next =>
      have hwords : ∀ k ∈ .kwNonSealed :: .identifier :: TokenKind.words, k ∈ otherKinds := by
        decide
      exact .inl (hwords _ (word_kind _))
  split
  next =>
      have hnumbers : ∀ k ∈ [TokenKind.intLiteral, .floatLiteral], k ∈ otherKinds := by decide
      exact .inl (hnumbers _ (number_kind _ _))
  split
  next => exact .inl (by simp [otherKinds])
  split
  next => exact .inl (by simp [otherKinds])
  split
  next => exact .inl (by simp [otherKinds])
  next =>
      unfold sign
      split
      next hfound => exact .inr hfound
      next => exact .inl (by simp [otherKinds])

end Scan

namespace Token

theorem read_nil (p : Position) : read p [] = [] := by
  rw [read]

theorem read_cons (p : Position) (b : UInt8) (rest : Bytes) :
    read p (b :: rest) =
      first p b rest :: read (first p b rest).span.stop (Scan.token b rest).2 := by
  rw [read]

/-- The text of a token and what the scanner leaves make up the input. -/
theorem first_literal_append (p : Position) (b : UInt8) (rest : Bytes) :
    (first p b rest).literal ++ (Scan.token b rest).2 = b :: rest := by
  obtain ⟨taken, htaken⟩ := Scan.token_suffix b rest
  have hlength : rest.length + 1 - (Scan.token b rest).2.length = (b :: taken).length := by
    have := congrArg List.length htaken
    simp only [List.length_append, List.length_cons] at this ⊢
    omega
  have hinput : b :: rest = (b :: taken) ++ (Scan.token b rest).2 := by
    rw [List.cons_append, htaken]
  simp only [first]
  rw [hlength]
  conv => lhs; lhs; rw [hinput]
  rw [List.take_left, List.cons_append, htaken]

theorem first_literal_ne_nil (p : Position) (b : UInt8) (rest : Bytes) :
    (first p b rest).literal ≠ [] := by
  intro hnil
  have happend := first_literal_append p b rest
  have hlength := (Scan.token_suffix b rest).length_le
  rw [hnil, List.nil_append] at happend
  rw [happend] at hlength
  simp only [List.length_cons] at hlength
  omega

/-- A sign is spelled as its name says. -/
theorem first_literal_of_sign {p : Position} {b : UInt8} {rest : Bytes}
    (h : (first p b rest).kind ∉ Scan.otherKinds) :
    (first p b rest).literal = Bytes.ofString (first p b rest).kind.name := by
  obtain ⟨spelling, hmem, hinput⟩ :=
    Scan.sign?_eq_some ((Scan.token_kind_or_sign b rest).resolve_left h)
  obtain ⟨kind, _, heq⟩ := List.mem_map.mp hmem
  cases heq
  rw [← first_literal_append p b rest] at hinput
  exact List.append_cancel_right hinput

theorem first_solid (p : Position) (b : UInt8) (rest : Bytes) : (first p b rest).Solid where
  text := first_literal_ne_nil p b rest
  kind := by
    have hother : ∀ k ∈ Scan.otherKinds, k ≠ .eof := by decide
    have hsigns : ∀ s ∈ TokenKind.signSpellings, s.2 ≠ .eof := by decide
    rcases Scan.token_kind_or_sign b rest with h | h
    · exact hother _ h
    · obtain ⟨spelling, hmem, _⟩ := Scan.sign?_eq_some h
      exact hsigns _ hmem
  spelled := by
    have hother : ∀ k ∈ Scan.otherKinds, Cursor.splittable.contains k = false := by decide
    intro hcut
    refine first_literal_of_sign fun h => ?_
    rw [hother _ h] at hcut
    cases hcut

/-- A row of tokens cut in two: the first part is a part of the input, and the
second part is read behind it. -/
theorem read_eq_append {p : Position} {input : Bytes} {before behind : List Token}
    (h : read p input = before ++ behind) :
    ∃ rest, input = before.flatMap literal ++ rest ∧
      behind = read (p.advance (before.flatMap literal)) rest := by
  induction before generalizing p input with
  | nil => exact ⟨input, rfl, h.symm⟩
  | cons t before ih =>
      cases input with
      | nil =>
          rw [read_nil] at h
          cases h
      | cons b rest =>
          rw [read_cons, List.cons_append, List.cons.injEq] at h
          obtain ⟨rfl, h⟩ := h
          obtain ⟨left, hinput, hbehind⟩ := ih h
          refine ⟨left, ?_, ?_⟩
          · rw [List.flatMap_cons, List.append_assoc, ← hinput, first_literal_append]
          · rw [hbehind, List.flatMap_cons]
            simp only [first, Position.advance, List.foldl_append]

/-- The texts of the tokens are the input. -/
theorem flatMap_literal_read (p : Position) (input : Bytes) :
    (read p input).flatMap literal = input := by
  obtain ⟨rest, hinput, hbehind⟩ := read_eq_append (List.append_nil (read p input)).symm
  cases rest with
  | nil => exact (hinput.trans (List.append_nil _)).symm
  | cons b rest =>
      rw [read_cons] at hbehind
      cases hbehind

/-- A token is what the scanner finds where it starts. -/
theorem exists_first_of_mem_read {p : Position} {input : Bytes} {t : Token}
    (h : t ∈ read p input) :
    ∃ before b rest, input = before ++ b :: rest ∧ t = first (p.advance before) b rest := by
  obtain ⟨front, back, hsplit⟩ := List.append_of_mem h
  obtain ⟨rest, hinput, hbehind⟩ := read_eq_append hsplit
  cases rest with
  | nil =>
      rw [read_nil] at hbehind
      cases hbehind
  | cons b rest =>
      rw [read_cons, List.cons.injEq] at hbehind
      exact ⟨_, b, rest, hinput, hbehind.1⟩

end Token

namespace Cursor

theorem ofSource_solid (source : Bytes) : (ofSource source).Solid := by
  intro t ht
  obtain ⟨before, b, rest, _, rfl⟩ := Token.exists_first_of_mem_read (List.mem_filter.mp ht).1
  exact Token.first_solid _ b rest

/-- The bytes ahead are bytes of the source. -/
theorem left_ofSource_le (source : Bytes) : (ofSource source).left ≤ source.length := by
  have hsource := congrArg List.length (Token.flatMap_literal_read .origin source)
  rw [List.length_flatMap] at hsource
  have hsublist := (List.filter_sublist (l := Token.read .origin source)
    (p := fun t => !t.kind.isTrivia)).map fun t => t.literal.length
  calc (ofSource source).left
      = (((Token.read .origin source).filter fun t => !t.kind.isTrivia).map
          fun t => t.literal.length).sum := rfl
    _ ≤ ((Token.read .origin source).map fun t => t.literal.length).sum := 
        hsublist.sum_le_sum fun _ _ => Nat.zero_le _
    _ = source.length := hsource

end Cursor

end DotCompletion
