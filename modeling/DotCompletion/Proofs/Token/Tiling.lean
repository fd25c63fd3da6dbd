import DotCompletion.Proofs.Token.Placement

/-!
# One token after the other

A lexer gives one token per call. Whatever the bytes of the source are, the calls run
through the tokens of the source and then give the end of the input forever
(`Lexer.call_eq`). The tokens tile the source: each has a text, is the text of its span, and
begins where the one in front of it ends (`Lexer.calls_tile`).
-/

namespace DotCompletion

theorem Token.Stands.text_span {source : Bytes} {t : Token} (h : t.Stands source) :
    t.span.text source = t.literal := by
  have hhi : t.span.stop.offset = t.span.start.offset + t.literal.length := h.hi_eq
  obtain ⟨before, behind, rfl, hstart, _⟩ := h
  rw [Span.text, hhi, hstart, Position.origin_advance_offset, Bytes.slice, ← List.append_assoc,
    List.take_left' (by rw [List.length_append]), List.drop_left]

/-- What a lexer has not read yet, and where that stands. -/
structure Lexer where
  place : Position
  input : Bytes

namespace Lexer

/-- The lexer in front of a source. -/
def ofSource (source : Bytes) : Lexer := ⟨.origin, source⟩

/-- One call: the next token, and the lexer behind it. A lexer that has read everything gives
the end of the input and stays where it is. -/
def next (l : Lexer) : Token × Lexer :=
  match l.input with
  | [] => (.endAt l.place, l)
  | b :: rest =>
    let t := Token.first l.place b rest
    (t, ⟨t.span.stop, (Scan.token b rest).2⟩)

/-- The lexer behind a number of calls. -/
def after (l : Lexer) : Nat → Lexer
  | 0 => l
  | k + 1 => (l.after k).next.2

/-- The token that a call gives, counting from zero. -/
def call (l : Lexer) (k : Nat) : Token := (l.after k).next.1

/-- The tokens that are left. -/
def tokens (l : Lexer) : List Token := Token.read l.place l.input

/-- The lexer stands behind a beginning of the source. -/
structure Behind (l : Lexer) (source before : Bytes) : Prop where
  source_eq : source = before ++ l.input
  place : l.place = Position.origin.advance before

/-! ## One call -/

variable {l : Lexer} {source before : Bytes}

theorem next_start (l : Lexer) : l.next.1.span.start = l.place := by
  unfold next
  split <;> rfl

theorem next_stop (l : Lexer) : l.next.2.place = l.next.1.span.stop := by
  unfold next
  split <;> rfl

theorem tokens_next (l : Lexer) : l.next.2.tokens = l.tokens.tail := by
  unfold next tokens
  split
  next h => rw [h, Token.read_nil, List.tail_nil]
  next h => rw [h, Token.read_cons, List.tail_cons]

theorem next_eq (l : Lexer) : l.next.1 = l.tokens.head?.getD (.endAt l.place) := by
  unfold next tokens
  split
  next h => rw [h, Token.read_nil]; rfl
  next h => rw [h, Token.read_cons]; rfl

theorem Behind.next (h : l.Behind source before) :
    l.next.2.Behind source (before ++ l.next.1.literal) := by
  obtain ⟨hsource, hplace⟩ := h
  unfold Lexer.next
  split
  next hinput => exact ⟨by simpa [Token.endAt] using hsource, by simpa [Token.endAt] using hplace⟩
  next b rest hinput =>
      refine ⟨?_, ?_⟩
      · rw [hsource, hinput, List.append_assoc, Token.first_literal_append]
      · rw [Position.advance_append, ← hplace]
        rfl

/-! ## All calls -/

theorem behind_after (source : Bytes) (k : Nat) :
    ∃ before, ((ofSource source).after k).Behind source before := by
  induction k with
  | zero => exact ⟨[], rfl, rfl⟩
  | succ k ih =>
      obtain ⟨before, h⟩ := ih
      exact ⟨_, h.next⟩

theorem tokens_after (l : Lexer) (k : Nat) : (l.after k).tokens = l.tokens.drop k := by
  induction k with
  | zero => rfl
  | succ k ih => rw [after, tokens_next, ih, List.tail_drop]

/-- The calls give the tokens of the source, and then the end of the input. -/
theorem call_eq (source : Bytes) (k : Nat) :
    (ofSource source).call k =
      (Token.read .origin source)[k]?.getD (.endAt (Position.origin.advance source)) := by
  rw [call, next_eq, tokens_after, List.head?_drop]
  change (Token.read .origin source)[k]?.getD _ = _
  cases hk : (Token.read .origin source)[k]? with
  | some t => rfl
  | none =>
      obtain ⟨before, hsource, hplace⟩ := behind_after source k
      have hempty : ((ofSource source).after k).tokens = [] := by
        rw [tokens_after]
        exact List.drop_eq_nil_of_le (List.getElem?_eq_none_iff.mp hk)
      have hinput : ((ofSource source).after k).input = [] := by
        cases h : ((ofSource source).after k).input with
        | nil => rfl
        | cons b rest =>
            rw [tokens, h, Token.read_cons] at hempty
            cases hempty
      rw [hinput, List.append_nil] at hsource
      rw [hplace, ← hsource]

theorem length_read_le (source : Bytes) : (Token.read .origin source).length ≤ source.length := by
  calc (Token.read .origin source).length
      = ((Token.read .origin source).map fun _ => 1).sum := by simp
    _ ≤ ((Token.read .origin source).map fun t => t.literal.length).sum := by
        refine List.sum_le_sum fun t ht => ?_
        obtain ⟨_, b, rest, _, rfl⟩ := Token.exists_first_of_mem_read ht
        exact List.length_pos_iff.mpr (Token.first_literal_ne_nil _ b rest)
    _ = source.length := by
        rw [← List.length_flatMap, Token.flatMap_literal_read]

/-- The first `n` calls tile the source, and the calls behind them give its end. -/
structure Tiles (source : Bytes) (n : Nat) : Prop where
  solid : ∀ k < n, ((ofSource source).call k).kind ≠ .eof ∧ ((ofSource source).call k).literal ≠ []
  text : ∀ k < n, ((ofSource source).call k).span.text source = ((ofSource source).call k).literal
  first : ((ofSource source).call 0).span.start = .origin
  chained : ∀ k, ((ofSource source).call (k + 1)).span.start = ((ofSource source).call k).span.stop
  spells : ((List.range n).map (ofSource source).call).flatMap Token.literal = source
  ends : ∀ k, n ≤ k → ∃ p, (ofSource source).call k = .endAt p ∧ p.offset = source.length

/-- Calling again and again gives tokens that tile the source, at most as many as the source
has bytes. They are the tokens of the source. -/
theorem calls_tile (source : Bytes) :
    ∃ n ≤ source.length, Tiles source n ∧
      Token.ofSource source = (List.range (n + 1)).map (ofSource source).call := by
  have hcalls : (List.range (Token.read .origin source).length).map (ofSource source).call =
      Token.read .origin source := by
    refine List.ext_getElem (by simp) fun k _ hk => ?_
    rw [List.getElem_map, List.getElem_range, call_eq, List.getElem?_eq_getElem hk]
    rfl
  have hend : ∀ k, (Token.read .origin source).length ≤ k →
      (ofSource source).call k = .endAt (Position.origin.advance source) := by
    intro k hk
    rw [call_eq, List.getElem?_eq_none hk]
    rfl
  have hmem : ∀ k < (Token.read .origin source).length,
      (ofSource source).call k ∈ Token.read .origin source := by
    intro k hk
    rw [call_eq, List.getElem?_eq_getElem hk]
    exact List.getElem_mem hk
  refine ⟨(Token.read .origin source).length, length_read_le source, ⟨?_, ?_, next_start _, ?_, ?_,
    ?_⟩, ?_⟩
  · intro k hk
    obtain ⟨before, b, rest, _, ht⟩ := Token.exists_first_of_mem_read (hmem k hk)
    rw [ht]
    exact ⟨(Token.first_solid _ b rest).kind, (Token.first_solid _ b rest).text⟩
  · intro k hk
    obtain ⟨before, b, rest, hsource, ht⟩ := Token.exists_first_of_mem_read (hmem k hk)
    rw [ht]
    exact (Token.Stands.first hsource).text_span
  · intro k
    rw [call, next_start, after, next_stop, call]
  · rw [hcalls, Token.flatMap_literal_read]
  · exact fun k hk => ⟨_, hend k hk, Position.origin_advance_offset source⟩
  · rw [List.range_succ, List.map_append, hcalls, Token.ofSource, List.map_singleton,
      hend _ (Nat.le_refl _)]

end Lexer

end DotCompletion
