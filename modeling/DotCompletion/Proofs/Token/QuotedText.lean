import DotCompletion.Proofs.Token.Placement

/-!
# Character and string literals

Behind its opening quote a literal goes on step by step: a byte for itself, or a backslash and the
byte it takes along. It ends behind the first quote that is a step of its own, in front of a newline
that is, or with the input. Since a backslash takes any byte along, a literal goes on in the next
line if and only if one takes the newline (`Token.quoted_literal`).
-/

namespace DotCompletion

namespace Scan

/-- A step inside of quotes: a byte for itself, or a backslash and the byte it takes along. -/
inductive QuotedStep where
  | plain (b : UInt8)
  | escaped (b : UInt8)
deriving DecidableEq, Repr

namespace QuotedStep

/-- The bytes of the step. -/
def bytes : QuotedStep → Bytes
  | plain b => [b]
  | escaped b => ['\\'.toUInt8, b]

/-- A literal that `quote` opened goes on behind the step. -/
def LeadsOn (quote : UInt8) : QuotedStep → Prop
  | plain b => b ≠ quote ∧ b ≠ '\n'.toUInt8 ∧ b ≠ '\\'.toUInt8
  | escaped _ => True

end QuotedStep

/-- The bytes that follow the last step of a literal that `quote` opened, in front of what is left
behind the literal. -/
inductive QuotedEnd (quote : UInt8) : Bytes → Bytes → Prop
  | closed (behind : Bytes) : QuotedEnd quote [quote] behind
  | line (behind : Bytes) : QuotedEnd quote [] ('\n'.toUInt8 :: behind)
  | input : QuotedEnd quote [] []
  /-- A backslash with no byte behind it. -/
  | backslash : QuotedEnd quote ['\\'.toUInt8] []

/-- Behind the opening quote come steps that lead on, and then an end. -/
theorem exists_steps_quoted (quote : UInt8) (input : Bytes) :
    ∃ (steps : List QuotedStep) (closing : Bytes),
      input = steps.flatMap QuotedStep.bytes ++ closing ++ quoted quote input ∧
      (∀ s ∈ steps, s.LeadsOn quote) ∧ QuotedEnd quote closing (quoted quote input) := by
  fun_induction quoted quote input with
  | case1 => exact ⟨[], [], rfl, List.forall_mem_nil _, .input⟩
  | case2 => exact ⟨[], [], rfl, List.forall_mem_nil _, .line []⟩
  | case3 b hline =>
      by_cases hquote : b = quote
      · exact ⟨[], [b], rfl, List.forall_mem_nil _, hquote ▸ .closed []⟩
      by_cases hescape : b = '\\'.toUInt8
      · exact ⟨[], [b], rfl, List.forall_mem_nil _, hescape ▸ .backslash⟩
      · exact ⟨[.plain b], [], rfl, by simpa [QuotedStep.LeadsOn] using ⟨hquote, hline, hescape⟩,
          .input⟩
  | case4 c rest => exact ⟨[], [quote], rfl, List.forall_mem_nil _, .closed _⟩
  | case5 c rest => exact ⟨[], [], rfl, List.forall_mem_nil _, .line _⟩
  | case6 c rest hquote hline ih =>
      obtain ⟨steps, closing, hinput, hsteps, hend⟩ := ih
      refine ⟨.escaped c :: steps, closing, ?_, List.forall_mem_cons.mpr ⟨trivial, hsteps⟩, hend⟩
      exact congrArg (fun tail => '\\'.toUInt8 :: c :: tail) hinput
  | case7 b c rest hquote hline hescape ih =>
      obtain ⟨steps, closing, hinput, hsteps, hend⟩ := ih
      refine ⟨.plain b :: steps, closing, ?_,
        List.forall_mem_cons.mpr ⟨⟨hquote, hline, hescape⟩, hsteps⟩, hend⟩
      exact congrArg (b :: ·) hinput

/-- A newline in the steps was taken along by a backslash. -/
theorem newline_mem_flatMap_bytes {quote : UInt8} {steps : List QuotedStep}
    (h : ∀ s ∈ steps, s.LeadsOn quote) :
    '\n'.toUInt8 ∈ steps.flatMap QuotedStep.bytes ↔ .escaped '\n'.toUInt8 ∈ steps := by
  rw [List.mem_flatMap]
  constructor
  · rintro ⟨s, hs, hmem⟩
    cases s with
    | plain b => exact absurd (List.mem_singleton.mp hmem).symm (h _ hs).2.1
    | escaped b =>
        rcases List.mem_cons.mp hmem with hslash | hmem
        · exact absurd hslash (by decide)
        · rwa [List.mem_singleton.mp hmem]
  · exact fun hs => ⟨_, hs, by simp [QuotedStep.bytes]⟩

theorem QuotedEnd.newline_not_mem {quote : UInt8} {closing behind : Bytes}
    (h : QuotedEnd quote closing behind) (hquote : quote ≠ '\n'.toUInt8) :
    '\n'.toUInt8 ∉ closing := by
  cases h with
  | closed => simpa using hquote.symm
  | line | input => exact List.not_mem_nil
  | backslash => decide

/-- The byte that opens a literal of the kind and closes it. -/
def quoteOf? : TokenKind → Option UInt8
  | .charLiteral => some '\x27'.toUInt8
  | .stringLiteral => some '\x22'.toUInt8
  | _ => none

theorem quoteOf?_ne_newline {kind : TokenKind} {quote : UInt8} (h : quote ∈ quoteOf? kind) :
    quote ≠ '\n'.toUInt8 := by
  unfold quoteOf? at h
  split at h <;> cases h <;> decide

/-- A literal begins with its quote and is scanned up to its end. -/
theorem token_of_quoteOf? {b quote : UInt8} {rest : Bytes}
    (h : quote ∈ quoteOf? (token b rest).1) : b = quote ∧ (token b rest).2 = quoted quote rest := by
  have hwords : ∀ k ∈ .kwNonSealed :: .identifier :: TokenKind.words, quoteOf? k = none := by decide
  have hnumbers : ∀ k ∈ [TokenKind.intLiteral, .floatLiteral], quoteOf? k = none := by decide
  have hsigns : ∀ s ∈ TokenKind.signSpellings, quoteOf? s.2 = none := by decide
  have hother : ∀ {k : TokenKind}, quoteOf? k = none → quote ∉ quoteOf? k := by
    intro k hk hmem
    rw [hk] at hmem
    cases hmem
  generalize hfound : token b rest = found at h ⊢
  unfold token at hfound
  split at hfound
  next => subst hfound; cases h
  split at hfound
  next => subst hfound; cases h
  split at hfound
  next => subst hfound; cases h
  split at hfound
  next => subst hfound; exact absurd h (hother (hwords _ (word_kind _)))
  split at hfound
  next => subst hfound; exact absurd h (hother (hnumbers _ (number_kind _ _)))
  split at hfound
  next hchar => subst hfound hchar; cases h; exact ⟨rfl, rfl⟩
  split at hfound
  next => subst hfound; cases h
  split at hfound
  next hstring => subst hfound hstring; cases h; exact ⟨rfl, rfl⟩
  next =>
      unfold sign at hfound
      split at hfound
      next hsign =>
          subst hfound
          obtain ⟨spelling, hmem, -⟩ := sign?_eq_some hsign
          exact absurd h (hother (hsigns _ hmem))
      next => subst hfound; cases h

end Scan

namespace Token

open Scan

/-- A character or string literal is its quote, steps and an end, and goes on behind a newline if
and only if a step is a backslash that takes the newline along. -/
theorem quoted_literal {source : Bytes} {t : Token} {quote : UInt8} (ht : t ∈ ofSource source)
    (hquote : quote ∈ quoteOf? t.kind) :
    ∃ (before : Bytes) (steps : List QuotedStep) (closing behind : Bytes),
      source = before ++ t.literal ++ behind ∧ t.span.start = Position.origin.advance before ∧
      t.literal = quote :: (steps.flatMap QuotedStep.bytes ++ closing) ∧
      (∀ s ∈ steps, s.LeadsOn quote) ∧ QuotedEnd quote closing behind ∧
      ('\n'.toUInt8 ∈ t.literal ↔ .escaped '\n'.toUInt8 ∈ steps) := by
  have hread : t ∈ read .origin source := by
    rcases List.mem_append.mp ht with hread | hend
    · exact hread
    · rw [List.mem_singleton.mp hend] at hquote
      cases hquote
  obtain ⟨before, b, rest, hsource, rfl⟩ := exists_first_of_mem_read hread
  obtain ⟨rfl, hbehind⟩ := token_of_quoteOf? hquote
  obtain ⟨steps, closing, hrest, hsteps, hend⟩ := exists_steps_quoted b rest
  have hwhole := first_literal_append (Position.origin.advance before) b rest
  have hliteral : (first (Position.origin.advance before) b rest).literal =
      b :: (steps.flatMap QuotedStep.bytes ++ closing) := by
    refine (List.append_left_inj (quoted b rest)).mp ?_
    rw [← hbehind, hwhole, hbehind, List.cons_append, ← hrest]
  refine ⟨before, steps, closing, quoted b rest, ?_, rfl, hliteral, hsteps, hend, ?_⟩
  · rw [hsource, List.append_assoc, ← hbehind, hwhole]
  · have hline := quoteOf?_ne_newline hquote
    simp [hliteral, hline.symm, hend.newline_not_mem hline, newline_mem_flatMap_bytes hsteps]

theorem quoted_literal_open :
    ∃ t ∈ ofSource (Bytes.ofString "f(\x22a\\\x22b\nc"), '\x22'.toUInt8 ∈ quoteOf? t.kind ∧
      t.literal = Bytes.ofString "\x22a\\\x22b" ∧
      ∃ (before : Bytes) (steps : List QuotedStep) (closing behind : Bytes),
        Bytes.ofString "f(\x22a\\\x22b\nc" = before ++ t.literal ++ behind ∧
        t.span.start = Position.origin.advance before ∧
        t.literal = '\x22'.toUInt8 :: (steps.flatMap QuotedStep.bytes ++ closing) ∧
        (∀ s ∈ steps, s.LeadsOn '\x22'.toUInt8) ∧ QuotedEnd '\x22'.toUInt8 closing behind ∧
        ('\n'.toUInt8 ∈ t.literal ↔ .escaped '\n'.toUInt8 ∈ steps) := by
  obtain ⟨t, ht, hquote, htext⟩ : ∃ t ∈ ofSource (Bytes.ofString "f(\x22a\\\x22b\nc"),
      '\x22'.toUInt8 ∈ quoteOf? t.kind ∧ t.literal = Bytes.ofString "\x22a\\\x22b" := by
    decide +kernel
  exact ⟨t, ht, hquote, htext, quoted_literal ht hquote⟩

/-- A backslash in front of a newline takes it along: the literal goes on in the next line. -/
theorem swallows_next_line :
    ∃ t ∈ ofSource (Bytes.ofString "\x22a\\\nb"), t.kind = .stringLiteral ∧
      '\n'.toUInt8 ∈ t.literal := by
  decide +kernel

end Token

end DotCompletion
