import DotCompletion.Completion.Request
import DotCompletion.Proofs.Token.Boundary

/-!
# Tokens around the inserted identifier

The identifier that is inserted at the cursor is not always a token of its own:
it may continue a word, stand in a comment or a string, or lose its first letter
to a hexadecimal number. No token begins further inside than behind its first
letter, and what begins right behind it follows a name.
-/

namespace DotCompletion

open Request (dummy)

namespace Token

variable {source : Bytes} {t : Token}

/-- The token in front of a token. -/
theorem exists_before (h : t ∈ read .origin source) (hpos : 0 < t.lo) :
    ∃ front b rest d left, source = front ++ b :: rest ∧ (Scan.token b rest).2 = d :: left ∧
      first (Position.origin.advance front) b rest ∈ read .origin source ∧
      t = first (first (Position.origin.advance front) b rest).span.stop d left := by
  obtain ⟨before, behind, hsplit⟩ := List.append_of_mem h
  rcases List.eq_nil_or_concat before with rfl | ⟨front, w, rfl⟩
  · obtain ⟨rest, _, hread⟩ := read_eq_append hsplit
    cases rest with
    | nil =>
        rw [read_nil] at hread
        cases hread
    | cons b rest =>
        rw [read_cons] at hread
        cases hread
        exact absurd hpos (Nat.lt_irrefl 0)
  · have hmem : w ∈ read .origin source := by simp [hsplit]
    rw [List.concat_append] at hsplit
    obtain ⟨rest, hsource, hread⟩ := read_eq_append hsplit
    cases rest with
    | nil =>
        rw [read_nil] at hread
        cases hread
    | cons b rest =>
        rw [read_cons, List.cons.injEq] at hread
        obtain ⟨rfl, hread⟩ := hread
        cases hleft : (Scan.token b rest).2 with
        | nil =>
            rw [hleft, read_nil] at hread
            cases hread
        | cons d left =>
            rw [hleft, read_cons, List.cons.injEq] at hread
            exact ⟨_, b, rest, d, left, hsource, hleft, hmem, hread.1⟩

/-- The bytes of the inserted identifier are letters. -/
theorem isLetter_of_mem_dummy : ∀ b ∈ dummy, Scan.isLetter b = true := by
  decide

variable {before behind : Bytes}

/-- A boundary inside the inserted identifier or behind it: the token in front of
it, and the bytes on both sides. -/
structure Boundary (before behind : Bytes) (t : Token) where
  front : Bytes
  b : UInt8
  rest : Bytes
  d : UInt8
  left : Bytes
  source_eq : before ++ (dummy ++ behind) = front ++ b :: rest
  token_eq : (Scan.token b rest).2 = d :: left
  mem : first (Position.origin.advance front) b rest ∈ read .origin (before ++ (dummy ++ behind))
  eq : t = first (first (Position.origin.advance front) b rest).span.stop d left
  front_eq : front ++ (first (Position.origin.advance front) b rest).literal =
    before ++ dummy.take (t.lo - before.length)
  left_eq : d :: left = dummy.drop (t.lo - before.length) ++ behind

theorem exists_boundary (h : t ∈ read .origin (before ++ (dummy ++ behind)))
    (hlt : before.length < t.lo) (hle : t.lo ≤ before.length + dummy.length) :
    Nonempty (Boundary before behind t) := by
  obtain ⟨front, b, rest, d, left, hsource, htoken, hmem, heq⟩ := exists_before h (by omega)
  have hinput := first_literal_append (Position.origin.advance front) b rest
  rw [htoken] at hinput
  have hlo : t.lo =
      (front ++ (first (Position.origin.advance front) b rest).literal).length := by
    rw [heq, lo, ← Position.origin_advance_offset, Position.advance_append]
    rfl
  have hcut : (front ++ (first (Position.origin.advance front) b rest).literal) ++ d :: left =
      (before ++ dummy.take (t.lo - before.length)) ++
        (dummy.drop (t.lo - before.length) ++ behind) := by
    rw [List.append_assoc, hinput, ← hsource, List.append_assoc before,
      ← List.append_assoc (dummy.take _), List.take_append_drop]
  obtain ⟨hfront, hleft⟩ := List.append_inj hcut (by
    rw [← hlo, List.length_append, List.length_take]
    omega)
  exact ⟨front, b, rest, d, left, hsource, htoken, hmem, heq, hfront, hleft⟩

namespace Boundary

variable (w : Boundary before behind t)

/-- The token in front of the boundary. -/
def previous : Token := first (Position.origin.advance w.front) w.b w.rest

theorem input_eq : w.b :: w.rest = w.previous.literal ++ w.d :: w.left := by
  have hinput := first_literal_append (Position.origin.advance w.front) w.b w.rest
  rw [w.token_eq] at hinput
  exact hinput.symm

/-- The token in front of the boundary ends in a letter. -/
theorem exists_letter (hlt : before.length < t.lo) :
    ∃ text z, w.b :: w.rest = text ++ z :: w.d :: w.left ∧ Scan.isWordByte z = true := by
  have hne : w.previous.literal ≠ [] := first_literal_ne_nil _ _ _
  refine ⟨w.previous.literal.dropLast, w.previous.literal.getLast hne, ?_, ?_⟩
  · rw [w.input_eq]
    conv => lhs; lhs; rw [← List.dropLast_append_getLast hne]
    rw [List.append_assoc, List.singleton_append]
  · have hlast : w.previous.literal.getLast hne ∈ dummy.take (t.lo - before.length) := by
      have htake : dummy.take (t.lo - before.length) ≠ [] := by
        have hpos : 0 < (dummy.take (t.lo - before.length)).length := by
          rw [List.length_take]
          have hlength : 0 < dummy.length := by decide
          omega
        exact List.ne_nil_of_length_pos hpos
      have heq : (w.front ++ w.previous.literal).getLast? = _ := congrArg List.getLast? w.front_eq
      rw [List.getLast?_append_of_ne_nil _ hne, List.getLast?_append_of_ne_nil _ htake,
        List.getLast?_eq_some_getLast hne, List.getLast?_eq_some_getLast htake] at heq
      rw [Option.some.injEq] at heq
      exact heq ▸ List.getLast_mem htake
    simp [Scan.isWordByte, isLetter_of_mem_dummy _ (List.mem_of_mem_take hlast)]

/-- A number does not reach further than behind the first letter. -/
theorem lo_eq_of_number (hlt : before.length < t.lo) (hnumber : Scan.StartsNumber w.b w.rest) :
    t.lo = before.length + 1 := by
  have hspelled : dummy = 'P'.toUInt8 :: 'o'.toUInt8 :: dummy.drop 2 := by decide
  have hlength : dummy.length = 17 := by decide
  have hletter : Scan.isLetter w.b = false := by
    rcases hnumber with hdigit | ⟨hdot, _⟩
    · exact Scan.not_isLetter_of_isDigit hdigit
    · rw [hdot]
      decide
  have hfront : w.front.length ≤ before.length := by
    -- otherwise the number would begin with a letter of the identifier
    by_contra hlong
    have hlengths := congrArg List.length w.front_eq
    rw [List.length_append, List.length_append] at hlengths
    have hsuffix : w.previous.literal <:+ dummy.take (t.lo - before.length) := by
      refine List.suffix_of_suffix_length_le (List.suffix_append w.front _) ?_ ?_
      · exact ⟨before, w.front_eq.symm⟩
      · have hprevious : w.previous.literal.length =
          (first (Position.origin.advance w.front) w.b w.rest).literal.length := rfl
        omega
    have hmem : w.b ∈ w.previous.literal := by
      have hne : w.previous.literal ≠ [] := first_literal_ne_nil _ _ _
      have hhead := congrArg List.head? w.input_eq
      rw [List.head?_cons, List.head?_append_of_ne_nil _ hne] at hhead
      exact List.mem_of_head? hhead.symm
    rw [isLetter_of_mem_dummy _ (List.mem_of_mem_take (hsuffix.subset hmem))] at hletter
    cases hletter
  have hsuffix : dummy ++ behind <:+ w.b :: w.rest := by
    refine List.suffix_of_suffix_length_le (List.suffix_append before _) ?_ ?_
    · rw [w.source_eq]
      exact List.suffix_append _ _
    · have hlengths := congrArg List.length w.source_eq
      simp only [List.length_append] at hlengths ⊢
      omega
  have hleft := congrArg List.length w.left_eq
  rw [List.length_append, List.length_drop] at hleft
  rw [hspelled, List.cons_append, List.cons_append] at hsuffix
  have htoken := w.token_eq
  rw [Scan.token_of_startsNumber hnumber] at htoken
  rcases Scan.suffix_number hnumber hsuffix with hall | htail
  · rw [htoken] at hall
    have hlong := hall.length_le
    simp only [List.length_cons, List.length_append, List.length_drop] at hlong hleft
    omega
  · rw [htoken] at htail
    have hshort := congrArg List.length htail
    simp only [List.length_cons, List.length_append, List.length_drop] at hshort hleft
    omega

/-- In front of the boundary stands a word, or a number that took the first
letter, or else a line ends there. -/
theorem cases_previous (hlt : before.length < t.lo) :
    (Scan.isLetter w.b = true ∧ Scan.isWordByte w.d = false) ∨ t.lo = before.length + 1 ∨
      w.d = '\n'.toUInt8 := by
  rcases Scan.endsApart_token w.b w.rest with hletter | hnumber | hapart
  · have hword := w.token_eq
    rw [Scan.token_of_isLetter hletter] at hword
    exact .inl ⟨hletter, Scan.word_munch hword⟩
  · exact .inr (.inl (w.lo_eq_of_number hlt hnumber))
  · obtain ⟨text, z, hinput, hz⟩ := w.exists_letter hlt
    rw [w.token_eq, hinput] at hapart
    exact .inr (.inr (hapart.eq_newline hz))

end Boundary

/-- No token begins inside the inserted identifier, but for one behind its first
letter. -/
theorem lo_le_of_lt (h : t ∈ read .origin (before ++ (dummy ++ behind)))
    (hlt : t.lo < before.length + dummy.length) : t.lo ≤ before.length + 1 := by
  by_contra hlong
  obtain ⟨w⟩ := exists_boundary h (by omega) (by omega)
  have hd : Scan.isWordByte w.d = true := by
    have hdrop : dummy.drop (t.lo - before.length) ≠ [] := by
      have hpos : 0 < (dummy.drop (t.lo - before.length)).length := by
        rw [List.length_drop]
        omega
      exact List.ne_nil_of_length_pos hpos
    have hhead := congrArg List.head? w.left_eq
    rw [List.head?_cons, List.head?_append_of_ne_nil _ hdrop] at hhead
    have hmem := List.mem_of_mem_drop (List.mem_of_head? hhead.symm)
    simp [Scan.isWordByte, isLetter_of_mem_dummy _ hmem]
  rcases w.cases_previous (by omega) with ⟨_, hnot⟩ | hlo | hnewline
  · rw [hd] at hnot
    cases hnot
  · omega
  · rw [hnewline] at hd
    exact absurd hd (by decide)

/-- A token right behind the inserted identifier is no name, and follows one. -/
theorem follows_name (h : t ∈ significant (before ++ (dummy ++ behind)))
    (hlo : t.lo = before.length + dummy.length) :
    t.kind.isIdentifier = false ∧
      ∃ u ∈ significant (before ++ (dummy ++ behind)), u.kind = .identifier ∧ u.hi = t.lo := by
  have hlength : dummy.length = 17 := by decide
  obtain ⟨hmem, htrivia⟩ := List.mem_filter.mp h
  obtain ⟨w⟩ := exists_boundary hmem (by omega) (by omega)
  have hhi : w.previous.hi = t.lo := (congrArg lo w.eq).symm
  rcases w.cases_previous (by omega) with ⟨hletter, hnot⟩ | hshort | hnewline
  · have hname : t.kind.isIdentifier = false := by
      by_contra hname
      rw [w.eq, Bool.not_eq_false] at hname
      have hd := Scan.isLetter_of_isIdentifier hname
      rw [Scan.isWordByte, hd] at hnot
      cases hnot
    have hkind : w.previous.kind = .identifier := by
      have hstands : w.previous.Stands _ := .first w.source_eq
      have hne : w.previous.literal ≠ [] := first_literal_ne_nil _ _ _
      have hpos := List.length_pos_iff.mpr hne
      have hlengths := hstands.hi_eq
      have hfirst : w.previous.lo ≤ before.length + 1 :=
        lo_le_of_lt w.mem (show w.previous.lo < _ by omega)
      have hword := Scan.token_of_isLetter hletter w.rest
      have hinput := w.input_eq
      rw [← w.token_eq, hword] at hinput
      change (Scan.token w.b w.rest).1 = _
      rw [hword]
      exact Scan.word_eq_identifier hinput.symm (by omega)
    refine ⟨hname, w.previous, List.mem_filter.mpr ⟨w.mem, ?_⟩, hkind, hhi⟩
    rw [hkind]
    rfl
  · omega
  · have hspace : t.kind = .whitespace := by
      rw [w.eq, hnewline]
      rfl
    rw [hspace] at htrivia
    cases htrivia

/-! ## Pieces of signs -/

theorem mem_dummy_of_split {front rest : Bytes} {z : UInt8}
    (h : before ++ (dummy ++ behind) = front ++ z :: rest) (hge : before.length ≤ front.length)
    (hlt : front.length < before.length + dummy.length) : z ∈ dummy := by
  have hat := congrArg (fun bytes : Bytes => bytes[front.length]?) h
  rw [List.getElem?_append_right hge, List.getElem?_append_left (by omega),
    List.getElem?_append_right (Nat.le_refl _), Nat.sub_self, List.getElem?_cons_zero] at hat
  exact List.mem_of_getElem? hat

namespace Part

/-- What was cut off a sign has no byte of a word. -/
theorem cases_piece (h : Part source t) :
    t ∈ significant source ∨ ∀ b ∈ t.literal, Scan.isWordByte b = false := by
  cases h with
  | whole h => exact .inl h
  | angle =>
      have hangle : ∀ b ∈ Bytes.ofString ">", Scan.isWordByte b = false := by decide
      exact .inr hangle
  | @behind t hpart hcut =>
      have hsigns : ∀ k ∈ Cursor.splittable, ∀ b ∈ Bytes.ofString k.name,
          Scan.isWordByte b = false := by decide
      refine .inr fun b hb => hsigns t.kind (by simpa using hcut) b ?_
      rw [← hpart.solid.spelled hcut]
      exact List.mem_of_mem_drop hb

/-- What was cut off a sign stands where the sign stands, or behind a byte of
it. -/
theorem cases_place (h : Part source t) :
    (∃ u ∈ significant source, u.lo = t.lo) ∨
      ∃ front rest, source = front ++ '>'.toUInt8 :: rest ∧ front.length + 1 = t.lo := by
  induction h with
  | @whole t h => exact .inl ⟨t, h, rfl⟩
  | angle _ _ ih => exact ih
  | @behind t hpart hcut _ =>
      obtain ⟨front, rest, hsource, hstart, _⟩ := hpart.stands
      rw [Cursor.literal_eq_cons hcut hpart.solid] at hsource
      refine .inr ⟨front, _, hsource, ?_⟩
      simp only [lo, Cursor.behindAngle, Position.right, hstart, Position.origin_advance_offset]

theorem lo_le_of_lt (h : t.Part (before ++ (dummy ++ behind)))
    (hlt : t.lo < before.length + dummy.length) : t.lo ≤ before.length + 1 := by
  rcases h.cases_piece with hwhole | hpiece
  · exact Token.lo_le_of_lt (List.mem_filter.mp hwhole).1 hlt
  · by_contra hlong
    obtain ⟨front, rest, hsource, hstart, _⟩ := h.stands
    have hlo : t.lo = front.length := by rw [lo, hstart, Position.origin_advance_offset]
    cases hliteral : t.literal with
    | nil => exact h.solid.text hliteral
    | cons z more =>
        rw [hliteral] at hsource hpiece
        have hz := mem_dummy_of_split hsource (by omega) (by omega)
        have hword := hpiece z List.mem_cons_self
        rw [Scan.isWordByte, isLetter_of_mem_dummy z hz] at hword
        cases hword

/-- What begins right behind the inserted identifier is no name, and follows
one. -/
theorem follows_name (h : t.Part (before ++ (dummy ++ behind)))
    (hlo : t.lo = before.length + dummy.length) :
    t.kind.isIdentifier = false ∧
      ∃ u ∈ significant (before ++ (dummy ++ behind)), u.kind = .identifier ∧ u.hi = t.lo := by
  have hlength : dummy.length = 17 := by decide
  rcases h.cases_place with ⟨t', ht', hlo'⟩ | ⟨front, rest, hsource, hfront⟩
  · obtain ⟨_, u, hu, hkind, hhi⟩ := Token.follows_name ht' (by omega)
    refine ⟨?_, u, hu, hkind, by omega⟩
    by_contra hname
    have hsigns : ∀ k ∈ TokenKind.error :: TokenKind.signs, k.isIdentifier = false := by decide
    have hwhole := h.mem_significant_of_not_sign fun hsign => hname (hsigns _ hsign)
    exact hname (Token.follows_name hwhole hlo).1
  · have hz := mem_dummy_of_split hsource (by omega) (by omega)
    exact absurd (isLetter_of_mem_dummy _ hz) (by decide)

end Part

end Token

end DotCompletion
