import DotCompletion.Source.Position
import DotCompletion.Token.Scan

/-!
# Tokens of a source

The source is cut into tokens from left to right until nothing is left; the
list ends with a token of kind `eof`. White space and comments are tokens too.
Reading ends because every scanner leaves an end of its input, `Scan.token` a
proper one.
-/

namespace DotCompletion

/-- A token: its kind, where it stands, and its text. -/
structure Token where
  kind : TokenKind
  span : Span
  literal : Bytes
deriving DecidableEq, Repr, Inhabited

/-- The empty token at the end of the input. -/
def Token.endAt (p : Position) : Token := ⟨.eof, .point p, []⟩

namespace Scan

theorem after?_suffix {lead input rest : Bytes} (h : Bytes.after? lead input = some rest) :
    rest <:+ input := by
  unfold Bytes.after? at h
  split at h
  next => cases h; exact List.drop_suffix _ _
  next => cases h

theorem skipAny_suffix (cs : List Char) (input : Bytes) : skipAny cs input <:+ input := by
  unfold skipAny
  split
  next => exact List.drop_suffix _ _
  next => exact List.suffix_refl _

theorem blockComment_suffix (input : Bytes) : blockComment input <:+ input := by
  induction input with
  | nil => exact List.suffix_refl _
  | cons b rest ih =>
      rw [blockComment]
      split
      next => exact (List.drop_suffix _ _).trans (List.suffix_cons _ _)
      next => exact ih.trans (List.suffix_cons _ _)

theorem quoted_suffix (quote : UInt8) (input : Bytes) : quoted quote input <:+ input := by
  fun_induction quoted quote input with
  | case1 => exact List.suffix_refl _
  | case2 => exact List.suffix_refl _
  | case3 => exact List.nil_suffix
  | case4 => exact List.suffix_cons _ _
  | case5 => exact List.suffix_refl _
  | case6 _ _ _ _ ih =>
      exact ih.trans ((List.suffix_cons _ _).trans (List.suffix_cons _ _))
  | case7 _ _ _ _ _ _ ih => exact ih.trans (List.suffix_cons _ _)

theorem textBlock_suffix (input : Bytes) : textBlock input <:+ input := by
  fun_induction textBlock input with
  | case1 => exact List.suffix_refl _
  | case2 => exact List.nil_suffix
  | case3 =>
      exact (List.drop_suffix _ _).trans ((List.suffix_cons _ _).trans (List.suffix_cons _ _))
  | case4 _ _ _ ih =>
      exact ih.trans ((List.suffix_cons _ _).trans (List.suffix_cons _ _))
  | case5 _ _ _ _ _ ih => exact ih.trans (List.suffix_cons _ _)

theorem exponent_suffix (marks : List Char) (input : Bytes) :
    (exponent marks input).2 <:+ input := by
  unfold exponent
  split
  next =>
      exact (List.dropWhile_suffix _).trans
        ((skipAny_suffix _ _).trans (List.drop_suffix _ _))
  next => exact List.suffix_refl _

theorem binaryNumber_suffix (input : Bytes) : (binaryNumber input).2 <:+ input :=
  (skipAny_suffix _ _).trans (List.dropWhile_suffix _)

theorem fraction_suffix (isDigit : UInt8 → Bool) (point : Bool) (whole : Bytes) :
    fraction isDigit point whole <:+ whole := by
  unfold fraction
  split
  next => exact (List.dropWhile_suffix _).trans (List.drop_suffix _ _)
  next => exact List.suffix_refl _

theorem hexEnd_suffix (isFloat : Bool) (rest : Bytes) : (hexEnd isFloat rest).2 <:+ rest := by
  unfold hexEnd
  split <;> exact skipAny_suffix _ _

theorem hexNumber_suffix (input : Bytes) : (hexNumber input).2 <:+ input :=
  (hexEnd_suffix _ _).trans ((exponent_suffix _ _).trans
    ((fraction_suffix _ _ _).trans (List.dropWhile_suffix _)))

theorem decimalEnd_suffix (isFloat : Bool) (rest : Bytes) :
    (decimalEnd isFloat rest).2 <:+ rest := by
  unfold decimalEnd
  split
  next => exact List.drop_suffix _ _
  split
  next => exact List.suffix_refl _
  next => exact skipAny_suffix _ _

/-- The first byte can start a number. -/
def StartsNumber (b : UInt8) (rest : Bytes) : Prop :=
  isDigit b ∨ (b = '.'.toUInt8 ∧ (rest.head?.map isDigit).getD false)

/-- A point in front of a digit is the point of a number. -/
theorem hasPoint_of_digit {rest : Bytes} (h : (rest.head?.map isDigit).getD false) :
    hasPoint ('.'.toUInt8 :: rest) = true := by
  cases rest with
  | nil => cases h
  | cons c _ =>
      simp only [List.head?_cons, Option.map_some, Option.getD_some] at h
      have hc : c ≠ '.'.toUInt8 := by
        rintro rfl
        exact absurd h (by decide)
      simp [hasPoint, Bytes.startsWith, hc]

theorem decimalNumber_suffix {b : UInt8} {rest : Bytes} (h : StartsNumber b rest) :
    (decimalNumber (b :: rest)).2 <:+ rest := by
  refine (decimalEnd_suffix _ _).trans ((exponent_suffix _ _).trans ?_)
  by_cases hdigit : isDigitOrBar b
  · refine (fraction_suffix _ _ _).trans ?_
    rw [List.dropWhile_cons_of_pos hdigit]
    exact List.dropWhile_suffix _
  · have hb : b = '.'.toUInt8 ∧ (rest.head?.map isDigit).getD false :=
      h.resolve_left fun hb => hdigit (by simp [isDigitOrBar, hb])
    obtain ⟨rfl, hnext⟩ := hb
    rw [List.dropWhile_cons_of_neg hdigit, hasPoint_of_digit hnext]
    exact List.dropWhile_suffix _

theorem number_suffix {b : UInt8} {rest : Bytes} (h : StartsNumber b rest) :
    (number b rest).2 <:+ rest := by
  unfold number
  split
  next => exact (hexNumber_suffix _).trans (List.drop_suffix _ _)
  next =>
      split
      next => exact (binaryNumber_suffix _).trans (List.drop_suffix _ _)
      next => exact decimalNumber_suffix h

theorem sealedTail?_suffix {input rest : Bytes} (h : sealedTail? input = some rest) :
    rest <:+ input := by
  unfold sealedTail? at h
  split at h
  next tail htail =>
      split at h
      next => cases h
      next => cases h; exact after?_suffix htail
  next => cases h

theorem word_suffix {b : UInt8} {rest : Bytes} (h : isWordByte b) :
    (word (b :: rest)).2 <:+ rest := by
  have hrest : (b :: rest).dropWhile isWordByte <:+ rest := by
    rw [List.dropWhile_cons_of_pos h]
    exact List.dropWhile_suffix _
  unfold word
  simp only
  split
  next =>
      split
      next behind hbehind => exact (sealedTail?_suffix hbehind).trans hrest
      next => exact hrest
  next => exact hrest

theorem sign?_suffix {b : UInt8} {rest : Bytes} {signs : List (Bytes × TokenKind)}
    (hsigns : ∀ s ∈ signs, s.1 ≠ []) {found : TokenKind × Bytes}
    (h : sign? (b :: rest) signs = some found) : found.2 <:+ rest := by
  induction signs with
  | nil => cases h
  | cons s signs ih =>
      obtain ⟨spelling, kind⟩ := s
      rw [sign?] at h
      split at h
      next behind hbehind =>
          cases h
          have hne : spelling ≠ [] := hsigns (spelling, kind) List.mem_cons_self
          unfold Bytes.after? at hbehind
          split at hbehind
          next =>
              cases hbehind
              cases spelling with
              | nil => exact absurd rfl hne
              | cons _ tail => exact List.drop_suffix tail.length rest
          next => cases hbehind
      next => exact ih (fun s hs => hsigns s (List.mem_cons_of_mem _ hs)) h

theorem signSpellings_ne_nil : ∀ s ∈ TokenKind.signSpellings, s.1 ≠ [] := by
  decide

theorem sign_suffix (b : UInt8) (rest : Bytes) : (sign b rest).2 <:+ rest := by
  unfold sign
  split
  next found hfound => exact sign?_suffix signSpellings_ne_nil hfound
  next => exact List.drop_suffix _ _

/-- A token takes its first byte: what is left is an end of the bytes behind
it. -/
theorem token_suffix (b : UInt8) (rest : Bytes) : (token b rest).2 <:+ rest := by
  unfold token
  split
  next => exact List.dropWhile_suffix _
  split
  next => exact (blockComment_suffix _).trans (List.drop_suffix _ _)
  split
  next => exact List.dropWhile_suffix _
  split
  next hletter => exact word_suffix (by simp [isWordByte, hletter])
  split
  next hnumber => exact number_suffix hnumber
  split
  next => exact quoted_suffix _ _
  split
  next => exact (textBlock_suffix _).trans (List.drop_suffix _ _)
  split
  next => exact quoted_suffix _ _
  next => exact sign_suffix _ _

end Scan

namespace Token

/-- The token at position `p` that starts with `b`. Its text is the input up to
where the scanner stopped. -/
def first (p : Position) (b : UInt8) (rest : Bytes) : Token :=
  let found := Scan.token b rest
  let literal := (b :: rest).take (rest.length + 1 - found.2.length)
  ⟨found.1, ⟨p, p.advance literal⟩, literal⟩

/-- The tokens of an input that stands at position `p`, without the closing
`eof`. -/
def read (p : Position) : Bytes → List Token
  | [] => []
  | b :: rest =>
    let t := first p b rest
    t :: read t.span.stop (Scan.token b rest).2
termination_by input => input.length
decreasing_by
  have := (Scan.token_suffix b rest).length_le
  simp only [List.length_cons]
  omega

/-- The tokens of a source, closed by one of kind `eof`. -/
def ofSource (source : Bytes) : List Token :=
  read .origin source ++ [endAt (Position.origin.advance source)]

/-- The tokens the grammar works on: no white space, no comments, no `eof`. -/
def significant (source : Bytes) : List Token :=
  (read .origin source).filter fun t => !t.kind.isTrivia

end Token

end DotCompletion
