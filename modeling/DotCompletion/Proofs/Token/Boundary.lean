import DotCompletion.Proofs.Token.Placement

/-!
# Where tokens end

A word runs as far as it can, so no byte of a word follows it. All other tokens
but numbers end in a byte that is none of a word, or at the end of a line. So
where two bytes of words are torn apart, the first one belongs to a number.
-/

namespace DotCompletion

namespace Scan

open Bytes (startsWith)

/-- What is left of the input is nothing or a new line, or stands behind a byte
that cannot be part of a word. -/
inductive EndsApart (input : Bytes) : Bytes → Prop
  | nothing : EndsApart input []
  | newline (rest : Bytes) : EndsApart input ('\n'.toUInt8 :: rest)
  | behind {text : Bytes} {z : UInt8} {rest : Bytes} (hinput : input = text ++ z :: rest)
      (hz : isWordByte z = false) : EndsApart input rest

namespace EndsApart

variable {input rest : Bytes}

theorem of_suffix {input' : Bytes} (h : EndsApart input rest) (hsuffix : input <:+ input') :
    EndsApart input' rest := by
  cases h with
  | nothing => exact .nothing
  | newline rest => exact .newline rest
  | behind hinput hz =>
      obtain ⟨front, rfl⟩ := hsuffix
      exact .behind (by rw [hinput, ← List.append_assoc]) hz

/-- Behind a byte of a word only the end of the line stands apart. -/
theorem eq_newline {text : Bytes} {z d : UInt8}
    (h : EndsApart (text ++ z :: d :: rest) (d :: rest)) (hz : isWordByte z = true) :
    d = '\n'.toUInt8 := by
  generalize hinput : text ++ z :: d :: rest = input at h
  generalize hleft : d :: rest = left at h
  cases h with
  | nothing => cases hleft
  | newline =>
      cases hleft
      rfl
  | @behind text' z' _ hinput' hz' =>
      subst hleft
      have hsame : text ++ [z] = text' ++ [z'] := by
        rw [← List.append_cancel_right_eq _ (d :: rest), List.append_assoc, List.append_assoc]
        exact hinput.trans hinput'
      obtain ⟨_, hlast⟩ := List.append_inj' hsame rfl
      cases hlast
      rw [hz] at hz'
      cases hz'

end EndsApart

theorem endsApart_dropWhile {p : UInt8 → Bool} (hp : ∀ b, p b = true → isWordByte b = false)
    {b : UInt8} (hb : p b = true) (rest : Bytes) :
    EndsApart (b :: rest) (rest.dropWhile p) := by
  induction rest generalizing b with
  | nil => exact .nothing
  | cons c rest ih =>
      rw [List.dropWhile_cons]
      split
      next hc => exact (ih hc).of_suffix (List.suffix_cons _ _)
      next => exact .behind (List.nil_append _).symm (hp b hb)

theorem endsApart_lineComment (input : Bytes) : EndsApart input (lineComment input) := by
  unfold lineComment
  cases hdrop : input.dropWhile (· != '\n'.toUInt8) with
  | nil => exact .nothing
  | cons b rest =>
      have hhead := List.head?_dropWhile_not (· != '\n'.toUInt8) input
      rw [hdrop] at hhead
      simp only [List.head?_cons, bne_eq_false_iff_eq] at hhead
      rw [hhead]
      exact .newline rest

theorem endsApart_blockComment (input : Bytes) : EndsApart input (blockComment input) := by
  induction input with
  | nil => exact .nothing
  | cons b rest ih =>
      rw [blockComment]
      split
      next hclose =>
          obtain ⟨rfl, hslash⟩ := hclose
          cases rest with
          | nil => cases hslash
          | cons c rest =>
              simp only [startsWith, List.head?_cons, beq_iff_eq, Option.some.injEq] at hslash
              subst hslash
              exact .behind (List.singleton_append).symm (by decide)
      next => exact ih.of_suffix (List.suffix_cons _ _)

theorem endsApart_quoted {quote : UInt8} (hquote : isWordByte quote = false) (input : Bytes) :
    EndsApart input (quoted quote input) := by
  fun_induction quoted quote input with
  | case1 => exact .nothing
  | case2 => exact .newline []
  | case3 => exact .nothing
  | case4 => exact .behind (List.nil_append _).symm hquote
  | case5 => exact .newline _
  | case6 _ _ _ _ ih =>
      exact ih.of_suffix ((List.suffix_cons _ _).trans (List.suffix_cons _ _))
  | case7 _ _ _ _ _ _ ih => exact ih.of_suffix (List.suffix_cons _ _)

theorem endsApart_textBlock (input : Bytes) : EndsApart input (textBlock input) := by
  fun_induction textBlock input with
  | case1 => exact .nothing
  | case2 => exact .nothing
  | case3 b c rest hmark =>
      cases rest with
      | nil => exact .nothing
      | cons d rest =>
          have hspelled : textBlockMark = ['\x22'.toUInt8, '\x22'.toUInt8, '\x22'.toUInt8] := by
            decide
          obtain ⟨_, hinput⟩ := List.isPrefixOf_iff_prefix.mp hmark
          rw [hspelled] at hinput
          cases hinput
          exact @EndsApart.behind _ ['\x22'.toUInt8, '\x22'.toUInt8] _ _ rfl (by decide)
  | case4 _ _ _ ih =>
      exact ih.of_suffix ((List.suffix_cons _ _).trans (List.suffix_cons _ _))
  | case5 _ _ _ _ _ ih => exact ih.of_suffix (List.suffix_cons _ _)

theorem signSpellings_apart : ∀ s ∈ TokenKind.signSpellings, ∀ b ∈ s.1, isWordByte b = false := by
  decide +kernel

theorem endsApart_sign {b : UInt8} (hb : isWordByte b = false) (rest : Bytes) :
    EndsApart (b :: rest) (sign b rest).2 := by
  unfold sign
  split
  next found hfound =>
      obtain ⟨spelling, hmem, hinput⟩ := sign?_eq_some hfound
      have hne : spelling ≠ [] := signSpellings_ne_nil _ hmem
      rw [hinput, ← List.dropLast_append_getLast hne, List.append_assoc]
      exact .behind rfl (signSpellings_apart _ hmem _ (List.getLast_mem hne))
  next =>
      -- a byte that starts no token is a character of its own
      have hascii : b < 0x80 := by
        by_contra hge
        have hletter : isLetter b = true := by simp [isLetter, UInt8.not_lt.mp hge]
        rw [isWordByte, hletter] at hb
        cases hb
      have hsize : (Utf8.head b rest).2 = 0 := by
        unfold Utf8.head
        split
        next c n hchar =>
            simp only [Utf8.char?, Utf8.lead?, hascii, if_true, Utf8.continued, Option.bind_eq_bind,
              Option.bind_some] at hchar
            split at hchar
            next => cases hchar; rfl
            next => cases hchar
        next => rfl
      rw [hsize]
      exact .behind (List.nil_append _).symm hb

theorem not_isWordByte_of_isSpace {b : UInt8} (h : isSpace b = true) : isWordByte b = false := by
  simp only [isSpace, List.any_cons, List.any_nil, Bool.or_false, Bool.or_eq_true, beq_iff_eq] at h
  rcases h with rfl | rfl | rfl | rfl | rfl <;> decide

theorem not_isSpace_of_isWordByte {b : UInt8} (h : isWordByte b = true) : isSpace b = false := by
  by_contra hspace
  rw [not_isWordByte_of_isSpace (by simpa using hspace)] at h
  cases h

/-- A token is a word or a number or ends apart. -/
theorem endsApart_token (b : UInt8) (rest : Bytes) :
    isLetter b = true ∨ StartsNumber b rest ∨ EndsApart (b :: rest) (token b rest).2 := by
  by_cases hletter : isLetter b = true
  · exact .inl hletter
  by_cases hnumber : StartsNumber b rest
  · exact .inr (.inl hnumber)
  refine .inr (.inr ?_)
  have hb : isWordByte b = false := by
    have hdigit : ¬isDigit b = true := fun hdigit => hnumber (.inl hdigit)
    simp [isWordByte, hletter, hdigit]
  unfold token
  split
  next => exact (endsApart_lineComment rest).of_suffix (List.suffix_cons _ _)
  split
  next =>
      exact (endsApart_blockComment _).of_suffix
        ((List.drop_suffix _ _).trans (List.suffix_cons _ _))
  split
  next hb => exact endsApart_dropWhile (fun _ => not_isWordByte_of_isSpace) hb rest
  split
  next hb => exact absurd hb hnumber
  split
  next => exact (endsApart_quoted hb rest).of_suffix (List.suffix_cons _ _)
  split
  next =>
      exact (endsApart_textBlock _).of_suffix
        ((List.drop_suffix _ _).trans (List.suffix_cons _ _))
  split
  next => exact (endsApart_quoted hb rest).of_suffix (List.suffix_cons _ _)
  next => exact endsApart_sign hb rest

/-! ## Words -/

theorem token_of_isLetter {b : UInt8} (hb : isLetter b = true) (rest : Bytes) :
    token b rest = word (b :: rest) := by
  have hslash : b ≠ '/'.toUInt8 := by
    rintro rfl
    exact absurd hb (by decide)
  have hspace : isSpace b = false := not_isSpace_of_isWordByte (by simp [isWordByte, hb])
  simp [token, hslash, hspace, hb]

/-- No byte of a word follows a word. -/
theorem word_munch {input rest : Bytes} {d : UInt8} (h : (word input).2 = d :: rest) :
    isWordByte d = false := by
  have hdrop : input.dropWhile isWordByte = d :: rest → isWordByte d = false := by
    intro hdrop
    have hhead := List.head?_dropWhile_not isWordByte input
    rw [hdrop] at hhead
    exact hhead
  simp only [word] at h
  split at h
  next =>
      split at h
      next behind hbehind =>
          unfold sealedTail? at hbehind
          split at hbehind
          next =>
              split at hbehind
              next => cases hbehind
              next hnot =>
                  cases hbehind
                  simp only at h
                  simpa [h] using hnot
          next => cases hbehind
      next => exact hdrop h
  next => exact hdrop h

/-- Names begin with a letter. -/
theorem isLetter_of_isIdentifier {b : UInt8} {rest : Bytes}
    (h : (token b rest).1.isIdentifier = true) : isLetter b = true := by
  have hother : ∀ k ∈ [TokenKind.intLiteral, .floatLiteral], k.isIdentifier = false := by decide
  have hsigns : ∀ s ∈ TokenKind.signSpellings, s.2.isIdentifier = false := by decide
  unfold token at h
  split at h
  next => cases h
  split at h
  next => cases h
  split at h
  next => cases h
  split at h
  next hb => exact hb
  split at h
  next =>
      rw [hother _ (number_kind b rest)] at h
      cases h
  split at h
  next => cases h
  split at h
  next => cases h
  split at h
  next => cases h
  next =>
      unfold sign at h
      split at h
      next found hfound =>
          obtain ⟨spelling, hmem, _⟩ := sign?_eq_some hfound
          rw [hsigns _ hmem] at h
          cases h
      next => cases h

/-- A long word is no keyword. -/
theorem ofWord_eq_identifier {text : Bytes} (hlength : 16 ≤ text.length) :
    TokenKind.ofWord text = .identifier := by
  have hkeywords : ∀ k ∈ TokenKind.words, (Bytes.ofString k.name).length < 16 := by decide +kernel
  unfold TokenKind.ofWord
  cases hfound : TokenKind.wordSpellings.lookup text with
  | none => rfl
  | some kind =>
      obtain ⟨hmem, rfl⟩ := TokenKind.mem_of_lookup hfound
      exact absurd hlength (Nat.not_le.mpr (hkeywords kind hmem))

theorem word_eq_identifier {input text : Bytes} (h : text ++ (word input).2 = input)
    (hlength : 16 ≤ text.length) : (word input).1 = .identifier := by
  have hplain : text ++ input.dropWhile isWordByte = input → text = input.takeWhile isWordByte := by
    intro hsplit
    refine List.append_cancel_right (hsplit.trans ?_)
    exact List.takeWhile_append_dropWhile.symm
  simp only [word] at h ⊢
  split
  next hnon =>
      rw [if_pos hnon] at h
      split
      next behind hbehind =>
          rw [hbehind] at h
          unfold sealedTail? at hbehind
          split at hbehind
          next tail htail =>
              split at hbehind
              next => cases hbehind
              next =>
                  cases hbehind
                  -- the whole word is shorter than that
                  rw [Bytes.after?_eq_some] at htail
                  have hinput := congrArg List.length
                    (@List.takeWhile_append_dropWhile _ isWordByte input)
                  have hlengths := congrArg List.length h
                  rw [hnon, htail] at hinput
                  simp only [List.length_append] at hinput hlengths
                  have hnonLength : (Bytes.ofString "non").length = 3 := by decide
                  have htailLength : sealedTail.length = 7 := by decide
                  omega
          next => cases hbehind
      next hnone =>
          rw [hnone] at h
          rw [← hplain h]
          exact ofWord_eq_identifier hlength
  next hother =>
      rw [if_neg hother] at h
      rw [← hplain h]
      exact ofWord_eq_identifier hlength

/-! ## Numbers -/

theorem not_isLetter_of_isDigit {b : UInt8} (h : isDigit b = true) : isLetter b = false := by
  simp only [isDigit, Bool.and_eq_true, decide_eq_true_eq] at h
  by_contra hletter
  simp only [isLetter, Bool.not_eq_false, Bool.or_eq_true, Bool.and_eq_true, decide_eq_true_eq,
    beq_iff_eq] at hletter
  rcases hletter with (((hge | hlower) | hupper) | rfl) | rfl
  · exact absurd (UInt8.le_trans hge h.2) (by decide)
  · exact absurd (UInt8.le_trans hlower.1 h.2) (by decide)
  · exact absurd (UInt8.le_trans hupper.1 h.2) (by decide)
  · exact absurd h.2 (by decide)
  · exact absurd h.1 (by decide)

theorem token_of_startsNumber {b : UInt8} {rest : Bytes} (hb : StartsNumber b rest) :
    token b rest = number b rest := by
  have hslash : b ≠ '/'.toUInt8 := by
    rintro rfl
    rcases hb with hdigit | ⟨hdot, _⟩
    · exact absurd hdigit (by decide)
    · exact absurd hdot (by decide)
  have hother : isSpace b = false ∧ isLetter b = false := by
    rcases hb with hdigit | ⟨rfl, _⟩
    · exact ⟨not_isSpace_of_isWordByte (by simp [isWordByte, hdigit]),
        not_isLetter_of_isDigit hdigit⟩
    · decide
  simp only [token, hslash, false_and, if_false, hother, Bool.false_eq_true]
  exact if_pos hb

section

variable {z : UInt8} {tail input : Bytes}

theorem suffix_dropWhile {p : UInt8 → Bool} (hz : p z = false) (h : z :: tail <:+ input) :
    z :: tail <:+ input.dropWhile p := by
  induction input with
  | nil => exact h
  | cons c rest ih =>
      rw [List.dropWhile_cons]
      split
      next hc =>
          refine ih ((List.suffix_cons_iff.mp h).resolve_left ?_)
          intro heq
          cases heq
          rw [hz] at hc
          cases hc
      next => exact h

theorem suffix_drop_one {cs : List Char} (hz : ∀ c ∈ cs, c.toUInt8 ≠ z)
    (h : z :: tail <:+ input) (hstarts : startsWithAny cs input = true) :
    z :: tail <:+ input.drop 1 := by
  cases input with
  | nil => exact h
  | cons b rest =>
      refine (List.suffix_cons_iff.mp h).resolve_left ?_
      intro heq
      cases heq
      obtain ⟨c, hc, hb⟩ := List.any_eq_true.mp hstarts
      simp only [startsWith, List.head?_cons, beq_iff_eq, Option.some.injEq] at hb
      exact hz c hc hb.symm

theorem suffix_skipAny {cs : List Char} (hz : ∀ c ∈ cs, c.toUInt8 ≠ z) (h : z :: tail <:+ input) :
    z :: tail <:+ skipAny cs input := by
  unfold skipAny
  split
  next hstarts => exact suffix_drop_one hz h hstarts
  next => exact h

theorem suffix_fraction {isDigit : UInt8 → Bool} (hz : isDigit z = false) (hpoint : '.'.toUInt8 ≠ z)
    {point : Bool} (hstarts : point = true → startsWith '.' input = true)
    (h : z :: tail <:+ input) : z :: tail <:+ fraction isDigit point input := by
  unfold fraction
  split
  next htrue =>
      have hdot : ∀ c ∈ ['.'], c.toUInt8 ≠ z := by simpa using hpoint
      exact suffix_dropWhile hz (suffix_drop_one hdot h (by simp [startsWithAny, hstarts htrue]))
  next => exact h

theorem suffix_exponent {marks : List Char} (hz : ∀ c ∈ marks, c.toUInt8 ≠ z)
    (hsign : ∀ c ∈ ['+', '-'], c.toUInt8 ≠ z) (hdigit : isDigitOrBar z = false)
    (h : z :: tail <:+ input) : z :: tail <:+ (exponent marks input).2 := by
  unfold exponent
  split
  next hstarts => exact suffix_dropWhile hdigit (suffix_skipAny hsign (suffix_drop_one hz h hstarts))
  next => exact h

end

section

variable {tail input : Bytes}

theorem suffix_decimalNumber (h : 'P'.toUInt8 :: tail <:+ input) :
    'P'.toUInt8 :: tail <:+ (decimalNumber input).2 := by
  have hpower : 'P'.toUInt8 :: tail <:+ (exponent ['e', 'E'] (fraction isDigitOrBar
      (hasPoint (input.dropWhile isDigitOrBar)) (input.dropWhile isDigitOrBar))).2 := by
    refine suffix_exponent (by decide) (by decide) (by decide) (suffix_fraction (by decide)
      (by decide) ?_ (suffix_dropWhile (by decide) h))
    intro hpoint
    simp only [hasPoint, Bool.and_eq_true] at hpoint
    exact hpoint.1
  simp only [decimalNumber, decimalEnd]
  split
  next hstarts => exact suffix_drop_one (by decide) hpower hstarts
  next =>
      split
      next => exact hpower
      next => exact suffix_skipAny (by decide) hpower

theorem suffix_binaryNumber (h : 'P'.toUInt8 :: tail <:+ input) :
    'P'.toUInt8 :: tail <:+ (binaryNumber input).2 :=
  suffix_skipAny (by decide) (suffix_dropWhile (by decide) h)

/-- A hexadecimal number takes the letter as the mark of an exponent, but not
what follows it. -/
theorem suffix_hexNumber (h : 'P'.toUInt8 :: 'o'.toUInt8 :: tail <:+ input) :
    'P'.toUInt8 :: 'o'.toUInt8 :: tail <:+ (hexNumber input).2 ∨
      (hexNumber input).2 = 'o'.toUInt8 :: tail := by
  have hwhole : 'P'.toUInt8 :: 'o'.toUInt8 :: tail <:+ fraction isHexOrBar
      (startsWith '.' (input.dropWhile isHexOrBar)) (input.dropWhile isHexOrBar) :=
    suffix_fraction (by decide) (by decide) id (suffix_dropWhile (by decide) h)
  have hend : ∀ isFloat : Bool, ∀ rest, ('P'.toUInt8 :: 'o'.toUInt8 :: tail <:+ rest ∨
      rest = 'o'.toUInt8 :: tail) →
      ('P'.toUInt8 :: 'o'.toUInt8 :: tail <:+ (hexEnd isFloat rest).2 ∨
        (hexEnd isFloat rest).2 = 'o'.toUInt8 :: tail) := by
    rintro isFloat rest (hrest | rfl)
    · unfold hexEnd
      split <;> exact .inl (suffix_skipAny (by decide) hrest)
    · cases isFloat <;> exact .inr rfl
  refine hend _ _ ?_
  simp only [exponent]
  split
  next hstarts =>
      generalize fraction isHexOrBar _ _ = rest at hwhole hstarts
      cases rest with
      | nil => cases hstarts
      | cons b rest =>
          rcases List.suffix_cons_iff.mp hwhole with heq | hsuffix
          · cases heq
            exact .inr rfl
          · exact .inl (suffix_dropWhile (by decide) (suffix_skipAny (by decide) hsuffix))
  next => exact .inl hwhole

theorem suffix_number {b : UInt8} {rest : Bytes} (hb : StartsNumber b rest)
    (h : 'P'.toUInt8 :: 'o'.toUInt8 :: tail <:+ b :: rest) :
    'P'.toUInt8 :: 'o'.toUInt8 :: tail <:+ (number b rest).2 ∨
      (number b rest).2 = 'o'.toUInt8 :: tail := by
  have hrest : 'P'.toUInt8 :: 'o'.toUInt8 :: tail <:+ rest := by
    refine (List.suffix_cons_iff.mp h).resolve_left ?_
    intro heq
    cases heq
    rcases hb with hdigit | ⟨hdot, _⟩
    · exact absurd hdigit (by decide)
    · exact absurd hdot (by decide)
  unfold number
  split
  next hbase => exact suffix_hexNumber (suffix_drop_one (by decide) hrest hbase.2)
  next =>
      split
      next hbase => exact .inl (suffix_binaryNumber (suffix_drop_one (by decide) hrest hbase.2))
      next => exact .inl (suffix_decimalNumber h)

end

end Scan

end DotCompletion
