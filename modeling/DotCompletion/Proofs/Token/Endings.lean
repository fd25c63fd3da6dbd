import DotCompletion.Proofs.Token.Boundary

/-!
# Sources with another ending

A token in front of the last word of a source stays what it is when the source ends
with another word, as long as nothing runs into that word (`Token.read_ending`).
-/

namespace DotCompletion

namespace Bytes

variable {text rest : Bytes}

theorem not_prefix_of_not_mem {lead : Bytes} {b : UInt8} (h : b ∉ lead) (text : Bytes) :
    ¬text ++ [b] <+: lead :=
  fun hstart => h (hstart.subset (by simp))

/-- What begins with a byte with which `lead` does not go on is no part of it. -/
theorem prefix_append_iff {lead : Bytes} (h : ∀ b ∈ rest.head?, ¬text ++ [b] <+: lead) :
    lead <+: text ++ rest ↔ lead <+: text := by
  refine ⟨fun hstart => ?_, fun hstart => hstart.trans (List.prefix_append _ _)⟩
  rcases List.prefix_or_prefix_of_prefix hstart (List.prefix_append text rest) with hshort | hlong
  · exact hshort
  · obtain ⟨more, rfl⟩ := hlong
    rw [List.prefix_append_right_inj] at hstart
    obtain ⟨behind, rfl⟩ := hstart
    cases more with
    | nil => simp
    | cons b more =>
        have hlead : text ++ [b] <+: text ++ b :: more :=
          (List.prefix_append_right_inj text).mpr (List.prefix_append [b] more)
        exact absurd hlead (h b rfl)

theorem startsWith_append {c : Char} (h : ∀ b ∈ rest.head?, b ≠ c.toUInt8) :
    startsWith c (text ++ rest) = startsWith c text := by
  cases text with
  | cons b tail => rfl
  | nil =>
      cases rest with
      | nil => rfl
      | cons b rest => simpa [startsWith] using h b rfl

theorem after?_append {lead : Bytes} (h : ∀ b ∈ rest.head?, ¬text ++ [b] <+: lead) :
    after? lead (text ++ rest) = (after? lead text).map (· ++ rest) := by
  unfold after?
  by_cases hstart : lead <+: text
  · rw [if_pos, if_pos, Option.map_some, List.drop_append_of_le_length hstart.length_le]
    · exact List.isPrefixOf_iff_prefix.mpr hstart
    · exact List.isPrefixOf_iff_prefix.mpr ((prefix_append_iff h).mpr hstart)
  · rw [if_neg, if_neg, Option.map_none]
    · exact fun h => hstart (List.isPrefixOf_iff_prefix.mp h)
    · exact fun hlong => hstart ((prefix_append_iff h).mp (List.isPrefixOf_iff_prefix.mp hlong))

end Bytes

namespace Scan

open Bytes

theorem sign?_append {signs : List (Bytes × TokenKind)} {text rest : Bytes}
    (h : ∀ b ∈ rest.head?, ∀ s ∈ signs, ¬text ++ [b] <+: s.1) :
    sign? (text ++ rest) signs =
      (sign? text signs).map fun found => (found.1, found.2 ++ rest) := by
  induction signs with
  | nil => rfl
  | cons s signs ih =>
      rw [sign?, sign?, after?_append fun b hb => h b hb s List.mem_cons_self,
        ih fun b hb s hs => h b hb s (List.mem_cons_of_mem _ hs)]
      cases after? s.1 text <;> rfl

/-- The input begins with a byte of a word. -/
def BeginsWord (input : Bytes) : Prop := ∃ b rest, input = b :: rest ∧ isWordByte b = true

variable {Y Z : Bytes}

/-- Two inputs that differ in their endings `Y` and `Z`, unless the first is no longer than
its ending. -/
def Differ (Y Z : Bytes) (s s' : Bytes) : Prop :=
  s.length ≤ Y.length ∨ ∃ b r, s = b :: (r ++ Y) ∧ s' = b :: (r ++ Z)

namespace Differ

variable {s s' : Bytes}

theorem short (hshort : s.length ≤ Y.length) {t : Bytes} (ht : t <:+ s) (t' : Bytes) :
    Differ Y Z t t' :=
  .inl (ht.length_le.trans hshort)

theorem append (r : Bytes) : Differ Y Z (r ++ Y) (r ++ Z) := by
  cases r with
  | nil => exact .inl (Nat.le_refl _)
  | cons b r => exact .inr ⟨b, r, rfl, rfl⟩

theorem dropWhile (h : Differ Y Z s s') (p : UInt8 → Bool) :
    Differ Y Z (s.dropWhile p) (s'.dropWhile p) := by
  rcases h with hshort | ⟨b, r, rfl, rfl⟩
  · exact short hshort (List.dropWhile_suffix p) _
  · induction r generalizing b with
    | nil =>
        by_cases hb : p b
        · refine .inl ?_
          rw [List.dropWhile_cons_of_pos hb]
          exact (List.dropWhile_suffix p).length_le
        · rw [List.dropWhile_cons_of_neg hb, List.dropWhile_cons_of_neg hb]
          exact append [b]
    | cons c r ih =>
        by_cases hb : p b
        · rw [List.dropWhile_cons_of_pos hb, List.dropWhile_cons_of_pos hb]
          exact ih c
        · rw [List.dropWhile_cons_of_neg hb, List.dropWhile_cons_of_neg hb]
          exact append (b :: c :: r)

theorem drop_one (h : Differ Y Z s s') : Differ Y Z (s.drop 1) (s'.drop 1) := by
  rcases h with hshort | ⟨b, r, rfl, rfl⟩
  · exact short hshort (List.drop_suffix _ _) _
  · exact append r

theorem skipAny (h : Differ Y Z s s') (cs : List Char) :
    Differ Y Z (skipAny cs s) (skipAny cs s') := by
  rcases h with hshort | ⟨b, r, rfl, rfl⟩
  · exact short hshort (skipAny_suffix cs s) _
  · have hstart : startsWithAny cs (b :: (r ++ Y)) = startsWithAny cs (b :: (r ++ Z)) := rfl
    unfold Scan.skipAny
    rw [hstart]
    split
    · exact append r
    · exact append (b :: r)

theorem fraction (h : Differ Y Z s s') (isDigit : UInt8 → Bool) (point : Bool) :
    Differ Y Z (fraction isDigit point s) (fraction isDigit point s') := by
  unfold Scan.fraction
  split
  · exact h.drop_one.dropWhile isDigit
  · exact h

end Differ

/-- Two scanners that find the same unless the first reaches the ending. -/
def Alike (Y Z : Bytes) {α : Type} (found found' : α × Bytes) : Prop :=
  found.2.length ≤ Y.length ∨ found.1 = found'.1 ∧ Differ Y Z found.2 found'.2

variable {s s' : Bytes}

theorem exponent_alike (h : Differ Y Z s s') (marks : List Char) :
    Alike Y Z (exponent marks s) (exponent marks s') := by
  rcases h with hshort | ⟨b, r, rfl, rfl⟩
  · exact .inl ((exponent_suffix marks s).length_le.trans hshort)
  · have hstart : startsWithAny marks (b :: (r ++ Y)) = startsWithAny marks (b :: (r ++ Z)) := rfl
    unfold exponent
    rw [hstart]
    split
    · exact .inr ⟨rfl, ((Differ.append r).skipAny _).dropWhile _⟩
    · exact .inr ⟨rfl, .append (b :: r)⟩

theorem decimalEnd_alike (h : Differ Y Z s s') (isFloat : Bool) :
    Alike Y Z (decimalEnd isFloat s) (decimalEnd isFloat s') := by
  rcases h with hshort | ⟨b, r, rfl, rfl⟩
  · exact .inl ((decimalEnd_suffix isFloat s).length_le.trans hshort)
  · have hstart : ∀ cs, startsWithAny cs (b :: (r ++ Y)) = startsWithAny cs (b :: (r ++ Z)) :=
      fun _ => rfl
    have hwhole : Differ Y Z (b :: (r ++ Y)) (b :: (r ++ Z)) := .append (b :: r)
    unfold decimalEnd
    rw [hstart]
    split
    · exact .inr ⟨rfl, .append r⟩
    · split
      · exact .inr ⟨rfl, hwhole⟩
      · exact .inr ⟨rfl, hwhole.skipAny _⟩

theorem hexEnd_alike (h : Differ Y Z s s') (isFloat : Bool) :
    Alike Y Z (hexEnd isFloat s) (hexEnd isFloat s') := by
  unfold hexEnd
  split <;> exact .inr ⟨rfl, h.skipAny _⟩

theorem BeginsWord.head_ne (h : BeginsWord Y) {c : UInt8} (hc : isWordByte c = false) :
    ∀ b ∈ Y.head?, b ≠ c := by
  obtain ⟨y, Y, rfl, hy⟩ := h
  rintro _ ⟨⟩ rfl
  rw [hc] at hy
  cases hy

theorem startsWith_append_eq {c : Char} (hc : isWordByte c.toUInt8 = false) (hY : BeginsWord Y)
    (hZ : BeginsWord Z) (mid : Bytes) : startsWith c (mid ++ Y) = startsWith c (mid ++ Z) := by
  rw [startsWith_append (hY.head_ne hc), startsWith_append (hZ.head_ne hc)]

theorem hasPoint_eq (hY : BeginsWord Y) (hZ : BeginsWord Z) (b : UInt8) (r : Bytes) :
    hasPoint (b :: (r ++ Y)) = hasPoint (b :: (r ++ Z)) := by
  have hnext : startsWith '.' (r ++ Y) = startsWith '.' (r ++ Z) :=
    startsWith_append_eq (by decide) hY hZ r
  simp only [hasPoint, List.drop_one, List.tail_cons, hnext]
  rfl

theorem decimalNumber_alike (hY : BeginsWord Y) (hZ : BeginsWord Z) (h : Differ Y Z s s') :
    Alike Y Z (decimalNumber s) (decimalNumber s') := by
  simp only [decimalNumber]
  rcases h.dropWhile isDigitOrBar with hshort | ⟨b, r, hwhole, hwhole'⟩
  · exact .inl (((decimalEnd_suffix _ _).trans ((exponent_suffix _ _).trans
      (fraction_suffix _ _ _))).length_le.trans hshort)
  · have hdiffer : Differ Y Z (b :: (r ++ Y)) (b :: (r ++ Z)) := .append (b :: r)
    rw [hwhole, hwhole', hasPoint_eq hY hZ]
    rcases exponent_alike (hdiffer.fraction isDigitOrBar (hasPoint (b :: (r ++ Z)))) ['e', 'E'] with
      hshort | ⟨hflag, hpower⟩
    · exact .inl ((decimalEnd_suffix _ _).length_le.trans hshort)
    · simp only [hflag]
      exact decimalEnd_alike hpower _

theorem hexNumber_alike (h : Differ Y Z s s') :
    Alike Y Z (hexNumber s) (hexNumber s') := by
  simp only [hexNumber]
  rcases h.dropWhile isHexOrBar with hshort | ⟨b, r, hwhole, hwhole'⟩
  · exact .inl (((hexEnd_suffix _ _).trans ((exponent_suffix _ _).trans
      (fraction_suffix _ _ _))).length_le.trans hshort)
  · have hdiffer : Differ Y Z (b :: (r ++ Y)) (b :: (r ++ Z)) := .append (b :: r)
    have hpoint : startsWith '.' (b :: (r ++ Y)) = startsWith '.' (b :: (r ++ Z)) := rfl
    rw [hwhole, hwhole', hpoint]
    rcases exponent_alike (hdiffer.fraction isHexOrBar (startsWith '.' (b :: (r ++ Z)))) ['p', 'P']
      with hshort | ⟨hflag, hpower⟩
    · exact .inl ((hexEnd_suffix _ _).length_le.trans hshort)
    · simp only [hflag]
      exact hexEnd_alike hpower _

theorem number_alike (hY : BeginsWord Y) (hZ : BeginsWord Z) {b : UInt8} {mid : Bytes}
    (hb : StartsNumber b (mid ++ Y)) : Alike Y Z (number b (mid ++ Y)) (number b (mid ++ Z)) := by
  cases mid with
  | nil => exact .inl (number_suffix hb).length_le
  | cons m mid =>
      have hstart : ∀ cs, startsWithAny cs (m :: (mid ++ Y)) = startsWithAny cs (m :: (mid ++ Z)) :=
        fun _ => rfl
      rw [List.cons_append, List.cons_append]
      unfold number
      rw [hstart, hstart]
      split
      · exact hexNumber_alike (.append mid)
      split
      · exact .inr ⟨rfl, ((Differ.append mid).dropWhile _).skipAny _⟩
      · exact decimalNumber_alike hY hZ (.append (b :: m :: mid))

/-- A number that ends in front of the last word does so in front of any other. -/
theorem number_ending (hY : BeginsWord Y) (hZ : BeginsWord Z) {b : UInt8} {mid r : Bytes}
    {kind : TokenKind} (hb : StartsNumber b (mid ++ Y)) (hr : r ≠ [])
    (h : number b (mid ++ Y) = (kind, r ++ Y)) : number b (mid ++ Z) = (kind, r ++ Z) := by
  have hlength := List.length_pos_iff.mpr hr
  rcases number_alike hY hZ hb with hshort | ⟨hkind, hshort | ⟨c, r', hleft, hleft'⟩⟩
  · rw [h, List.length_append] at hshort
    omega
  · rw [h, List.length_append] at hshort
    omega
  · rw [h, ← List.cons_append] at hleft
    rw [h] at hkind
    exact Prod.ext hkind.symm (by rw [hleft', ← List.cons_append, ← List.append_cancel_right hleft])

/-! ## Words, comments and signs -/

/-- What goes on up to the last word, and stops at it, stops at another word too. -/
theorem dropWhile_ending {p : UInt8 → Bool} {mid r : Bytes} (hY : BeginsWord Y) (hZ : BeginsWord Z)
    (hp : ∀ y z, isWordByte y = true → isWordByte z = true → p y = false → p z = false)
    (h : (mid ++ Y).dropWhile p = r ++ Y) : (mid ++ Z).dropWhile p = r ++ Z := by
  induction mid with
  | nil =>
      obtain ⟨y, Y, rfl, hy⟩ := hY
      obtain ⟨z, Z, rfl, hz⟩ := hZ
      by_cases hstop : p y = true
      · have hlength := (@List.dropWhile_suffix _ Y p).length_le
        rw [List.nil_append, List.dropWhile_cons_of_pos hstop] at h
        rw [h, List.length_append, List.length_cons] at hlength
        omega
      · rw [List.nil_append, List.dropWhile_cons_of_neg hstop, List.self_eq_append_left] at h
        rw [h, List.nil_append]
        exact List.dropWhile_cons_of_neg (by simp [hp y z hy hz (by simpa using hstop)])
  | cons b mid ih =>
      by_cases hb : p b
      · rw [List.cons_append, List.dropWhile_cons_of_pos hb] at h ⊢
        exact ih h
      · rw [List.cons_append, List.dropWhile_cons_of_neg hb] at h ⊢
        rw [← List.cons_append] at h ⊢
        rw [List.append_cancel_right h]

theorem blockComment_length_le (b : UInt8) (rest : Bytes) :
    (blockComment (b :: rest)).length ≤ rest.length := by
  rw [blockComment]
  split
  · exact (List.drop_suffix _ _).length_le
  · exact (blockComment_suffix rest).length_le

theorem blockComment_ending {mid r : Bytes} (hY : BeginsWord Y) (hZ : BeginsWord Z)
    (h : blockComment (mid ++ Y) = r ++ Y) : blockComment (mid ++ Z) = r ++ Z := by
  induction mid with
  | nil =>
      obtain ⟨y, Y, rfl, _⟩ := hY
      have hlength := blockComment_length_le y Y
      rw [List.nil_append] at h
      rw [h, List.length_append, List.length_cons] at hlength
      omega
  | cons b mid ih =>
      rw [List.cons_append, blockComment] at h ⊢
      rw [startsWith_append_eq (by decide) hY hZ] at h
      split
      next hclose =>
          rw [if_pos hclose] at h
          cases mid with
          | nil =>
              obtain ⟨z, Z, rfl, hz⟩ := hZ
              have hslash : z = '/'.toUInt8 := by simpa [startsWith] using hclose.2
              rw [hslash] at hz
              exact absurd hz (by decide)
          | cons c mid =>
              simp only [List.cons_append, List.drop_one, List.tail_cons] at h ⊢
              rw [List.append_cancel_right h]
      next hclose =>
          rw [if_neg hclose] at h
          exact ih h

theorem word_eq_of_ne_nonSealed {input rest : Bytes} {kind : TokenKind}
    (h : word input = (kind, rest)) (hkind : kind ≠ .kwNonSealed) :
    input.dropWhile isWordByte = rest ∧ TokenKind.ofWord (input.takeWhile isWordByte) = kind ∧
      (input.takeWhile isWordByte = Bytes.ofString "non" → sealedTail? rest = none) := by
  simp only [word] at h
  split at h
  next hnon =>
      split at h
      next => cases h; exact absurd rfl hkind
      next hnone => cases h; exact ⟨rfl, rfl, fun _ => hnone⟩
  next hnon => cases h; exact ⟨rfl, rfl, fun h => absurd h hnon⟩

/-- A word in front of the last one. It must not become `non-sealed` with it. -/
theorem word_ending {mid r : Bytes} {kind : TokenKind} (hY : BeginsWord Y) (hZ : BeginsWord Z)
    (hsealed : ∀ r, sealedTail? (r ++ Y) = none → sealedTail? (r ++ Z) = none)
    (hkind : kind ≠ .kwNonSealed) (h : word (mid ++ Y) = (kind, r ++ Y)) :
    word (mid ++ Z) = (kind, r ++ Z) := by
  obtain ⟨hrest, hword, hnon⟩ := word_eq_of_ne_nonSealed h hkind
  have hrest' : (mid ++ Z).dropWhile isWordByte = r ++ Z := by
    refine dropWhile_ending hY hZ (fun y z hy _ hnot => ?_) hrest
    rw [hy] at hnot
    cases hnot
  have htext : ∀ {X : Bytes}, (mid ++ X).dropWhile isWordByte = r ++ X →
      (mid ++ X).takeWhile isWordByte ++ r = mid := by
    intro X hdrop
    have hboth := @List.takeWhile_append_dropWhile _ isWordByte (mid ++ X)
    rw [hdrop, ← List.append_assoc] at hboth
    exact List.append_cancel_right hboth
  have heq : (mid ++ Z).takeWhile isWordByte = (mid ++ Y).takeWhile isWordByte :=
    List.append_cancel_right ((htext hrest').trans (htext hrest).symm)
  simp only [word, heq, hrest', hword]
  split
  next htext => rw [hsealed r (hnon htext)]
  next => rfl

/-- A sign in front of the last word. -/
theorem sign_ending {b : UInt8} {mid r : Bytes} {kind : TokenKind} (hY : BeginsWord Y)
    (hZ : BeginsWord Z) (hkind : kind ≠ .error) (h : sign b (mid ++ Y) = (kind, r ++ Y)) :
    sign b (mid ++ Z) = (kind, r ++ Z) := by
  have hapart : ∀ {X}, BeginsWord X → ∀ x ∈ X.head?, ∀ s ∈ TokenKind.signSpellings,
      ¬b :: mid ++ [x] <+: s.1 := by
    rintro _ ⟨x, X, rfl, hx⟩ _ ⟨⟩ s hs
    refine not_prefix_of_not_mem (fun hmem => ?_) _
    rw [signSpellings_apart s hs x hmem] at hx
    cases hx
  have hsplit : ∀ {X}, BeginsWord X → sign? (b :: (mid ++ X)) TokenKind.signSpellings =
      (sign? (b :: mid) TokenKind.signSpellings).map fun found => (found.1, found.2 ++ X) :=
    fun hX => @sign?_append _ (b :: mid) _ (hapart hX)
  unfold sign at h ⊢
  rw [hsplit hY] at h
  rw [hsplit hZ]
  cases hfound : sign? (b :: mid) TokenKind.signSpellings with
  | none =>
      rw [hfound] at h
      exact absurd (congrArg Prod.fst h).symm hkind
  | some found =>
      rw [hfound] at h
      simp only [Option.map_some, Prod.mk.injEq] at h ⊢
      exact ⟨h.1, by rw [List.append_cancel_right h.2]⟩

/-- The kinds of white space, comments, words, whole numbers and signs. -/
def steadyKinds : List TokenKind :=
  [.whitespace, .comment, .lineComment, .intLiteral] ++ TokenKind.identifiers ++
    TokenKind.signs.filter fun k => k != .dot && k != .ellipsis

theorem ne_newline_of_isWordByte {b : UInt8} (h : isWordByte b = true) :
    (b != '\n'.toUInt8) = true := by
  rw [bne_iff_ne]
  rintro rfl
  exact absurd h (by decide)

/-- What begins with a point and is no number is a point or three of them. -/
theorem not_steady_of_point {rest left : Bytes} {kind : TokenKind}
    (h : sign '.'.toUInt8 rest = (kind, left)) : kind ∉ steadyKinds := by
  have hpoints : ∀ s ∈ TokenKind.signSpellings, s.1.head? = some '.'.toUInt8 →
      s.2 ∉ steadyKinds := by decide
  unfold sign at h
  split at h
  next found hfound =>
      subst h
      obtain ⟨spelling, hmem, hinput⟩ := sign?_eq_some hfound
      refine hpoints _ hmem ?_
      cases spelling with
      | nil => exact absurd rfl (signSpellings_ne_nil _ hmem)
      | cons c spelling =>
          rw [List.cons_append, List.cons.injEq] at hinput
          rw [hinput.1]
          rfl
  next =>
      cases h
      decide

theorem not_floatLiteral_mem : TokenKind.floatLiteral ∉ steadyKinds := by decide

/-- A number in front of the last word. It must not touch it. -/
theorem token_ending_of_startsNumber {b : UInt8} {mid r : Bytes} {kind : TokenKind}
    (hY : BeginsWord Y) (hZ : BeginsWord Z) (hstarts : StartsNumber b (mid ++ Y))
    (hkind : kind ∈ steadyKinds) (hnumber : r = [] → kind ≠ .intLiteral)
    (h : token b (mid ++ Y) = (kind, r ++ Y)) : token b (mid ++ Z) = (kind, r ++ Z) := by
  rw [token_of_startsNumber hstarts] at h
  have hint : kind = .intLiteral := by
    have hkinds := number_kind b (mid ++ Y)
    rw [h] at hkinds
    refine (List.mem_pair.mp hkinds).resolve_right ?_
    rintro rfl
    exact not_floatLiteral_mem hkind
  have hr : r ≠ [] := fun hr => hnumber hr hint
  have hstarts' : StartsNumber b (mid ++ Z) := by
    cases mid with
    | cons m mid => exact hstarts
    | nil =>
        have hlength := (number_suffix hstarts).length_le
        rw [h, List.length_append, List.nil_append] at hlength
        exact absurd (List.length_eq_zero_iff.mp (by omega)) hr
  rw [token_of_startsNumber hstarts']
  exact number_ending hY hZ hstarts hr h

/-- A token that is neither a word nor a number is a comment, white space, a literal in
quotes or a sign. -/
theorem token_of_other {b : UInt8} {rest : Bytes} (hletter : ¬isLetter b = true)
    (hstarts : ¬StartsNumber b rest) : token b rest =
      if b = '/'.toUInt8 ∧ startsWith '/' rest then (.lineComment, lineComment rest)
      else if b = '/'.toUInt8 ∧ startsWith '*' rest then (.comment, blockComment (rest.drop 1))
      else if isSpace b then (.whitespace, rest.dropWhile isSpace)
      else if b = '\x27'.toUInt8 then (.charLiteral, quoted b rest)
      else if textBlockMark.isPrefixOf (b :: rest) then (.textBlock, textBlock (rest.drop 2))
      else if b = '\x22'.toUInt8 then (.stringLiteral, quoted b rest)
      else sign b rest := by
  unfold token
  rw [if_neg hletter]
  congr 3
  exact if_neg hstarts

theorem token_of_point {rest : Bytes} (hstarts : ¬StartsNumber '.'.toUInt8 rest) :
    token '.'.toUInt8 rest = sign '.'.toUInt8 rest := by
  have hmark : textBlockMark.isPrefixOf ('.'.toUInt8 :: rest) = false := by
    have hspelled : textBlockMark = '\x22'.toUInt8 :: textBlockMark.drop 1 := by decide
    rw [hspelled, List.isPrefixOf]
    rfl
  have hne : '.'.toUInt8 ≠ '/'.toUInt8 := by decide
  rw [token_of_other (by decide) hstarts, if_neg fun h => hne h.1, if_neg fun h => hne h.1,
    if_neg (by decide), if_neg (by decide), hmark, if_neg Bool.false_ne_true, if_neg (by decide)]

/-- A comment, white space or a sign in front of the last word. It is no point, which would
make a number of digits behind it. -/
theorem token_ending_of_other {b : UInt8} {mid r : Bytes} {kind : TokenKind} (hY : BeginsWord Y)
    (hZ : BeginsWord Z) (hletter : ¬isLetter b = true) (hstarts : ¬StartsNumber b (mid ++ Y))
    (hkind : kind ∈ steadyKinds) (h : token b (mid ++ Y) = (kind, r ++ Y)) :
    token b (mid ++ Z) = (kind, r ++ Z) := by
  have hother : ∀ k ∈ [TokenKind.charLiteral, .textBlock, .stringLiteral, .error],
      k ∉ steadyKinds := by decide
  have hslash : startsWith '/' (mid ++ Y) = startsWith '/' (mid ++ Z) :=
    startsWith_append_eq (by decide) hY hZ mid
  have hstar : startsWith '*' (mid ++ Y) = startsWith '*' (mid ++ Z) :=
    startsWith_append_eq (by decide) hY hZ mid
  by_cases hpoint : b = '.'.toUInt8
  · subst hpoint
    rw [token_of_point hstarts] at h
    exact absurd hkind (not_steady_of_point h)
  rw [token_of_other hletter hstarts, hslash, hstar] at h
  have hstarts' : ¬StartsNumber b (mid ++ Z) := by
    rintro (hdigit | ⟨hdot, _⟩)
    · exact hstarts (.inl hdigit)
    · exact hpoint hdot
  rw [token_of_other hletter hstarts']
  by_cases hline : b = '/'.toUInt8 ∧ startsWith '/' (mid ++ Z) = true
  · rw [if_pos hline] at h ⊢
    simp only [Prod.mk.injEq] at h ⊢
    refine ⟨h.1, dropWhile_ending hY hZ (fun y z hy _ hnot => ?_) h.2⟩
    rw [ne_newline_of_isWordByte hy] at hnot
    cases hnot
  rw [if_neg hline] at h ⊢
  by_cases hblock : b = '/'.toUInt8 ∧ startsWith '*' (mid ++ Z) = true
  · rw [if_pos hblock] at h ⊢
    simp only [Prod.mk.injEq] at h ⊢
    refine ⟨h.1, ?_⟩
    cases mid with
    | nil =>
        rw [startsWith_append (hZ.head_ne (by decide))] at hblock
        cases hblock.2
    | cons m mid => exact blockComment_ending hY hZ h.2
  rw [if_neg hblock] at h ⊢
  by_cases hspace : isSpace b = true
  · rw [if_pos hspace] at h ⊢
    simp only [Prod.mk.injEq] at h ⊢
    exact ⟨h.1, dropWhile_ending hY hZ (fun y z _ hz _ => not_isSpace_of_isWordByte hz) h.2⟩
  rw [if_neg hspace] at h ⊢
  have hquote : b ≠ '\x27'.toUInt8 := by
    rintro rfl
    rw [if_pos rfl] at h
    exact hother kind (by simp [← (Prod.mk.inj h).1]) hkind
  have hstring : b ≠ '\x22'.toUInt8 := by
    rintro rfl
    rw [if_neg hquote] at h
    split at h
    · exact hother kind (by simp [← (Prod.mk.inj h).1]) hkind
    · rw [if_pos rfl] at h
      exact hother kind (by simp [← (Prod.mk.inj h).1]) hkind
  have hmark : ∀ rest, textBlockMark.isPrefixOf (b :: rest) = false := by
    intro rest
    have hspelled : textBlockMark = '\x22'.toUInt8 :: textBlockMark.drop 1 := by decide
    rw [hspelled, List.isPrefixOf, Bool.and_eq_false_iff]
    exact .inl (beq_eq_false_iff_ne.mpr hstring.symm)
  rw [if_neg hquote, hmark, if_neg Bool.false_ne_true, if_neg hstring] at h ⊢
  exact sign_ending hY hZ (fun hk => hother kind (by simp [hk]) hkind) h

/-- A token in front of the last word stays what it is in front of another. -/
theorem token_ending {b : UInt8} {mid r : Bytes} {kind : TokenKind} (hY : BeginsWord Y)
    (hZ : BeginsWord Z)
    (hsealed : ∀ r, sealedTail? (r ++ Y) = none → sealedTail? (r ++ Z) = none)
    (hkind : kind ∈ steadyKinds) (hnumber : r = [] → kind ≠ .intLiteral)
    (h : token b (mid ++ Y) = (kind, r ++ Y)) : token b (mid ++ Z) = (kind, r ++ Z) := by
  by_cases hletter : isLetter b = true
  · rw [token_of_isLetter hletter] at h ⊢
    refine @word_ending _ _ (b :: mid) _ _ hY hZ hsealed ?_ h
    rintro rfl
    exact absurd hkind (by decide)
  by_cases hstarts : StartsNumber b (mid ++ Y)
  · exact token_ending_of_startsNumber hY hZ hstarts hkind hnumber h
  · exact token_ending_of_other hY hZ hletter hstarts hkind h

end Scan

namespace Token

open Scan

/-- What the scanner finds makes the token. -/
theorem first_eq {t : Token} {b : UInt8} {rest left : Bytes}
    (h : Scan.token b rest = (t.kind, left)) (hsplit : b :: rest = t.literal ++ left)
    {p : Position} (hspan : t.span = ⟨p, p.advance t.literal⟩) : first p b rest = t := by
  have hliteral := first_literal_append p b rest
  rw [h, hsplit] at hliteral
  have hfirst : first p b rest = ⟨(Scan.token b rest).1, ⟨p, p.advance (first p b rest).literal⟩,
      (first p b rest).literal⟩ := rfl
  rw [hfirst, List.append_cancel_right hliteral, h, ← hspan]

/-- The tokens in front of the last word stay what they are in front of another. -/
theorem read_ending {Y Z P : Bytes} {p : Position} {before : List Token} (hY : BeginsWord Y)
    (hZ : BeginsWord Z)
    (hsealed : ∀ r, sealedTail? (r ++ Y) = none → sealedTail? (r ++ Z) = none)
    (h : read p (P ++ Y) = before ++ read (p.advance P) Y) (hP : before.flatMap literal = P)
    (hkinds : ∀ t ∈ before, t.kind ∈ steadyKinds)
    (hlast : ∀ t ∈ before.getLast?, t.kind ≠ .intLiteral) :
    read p (P ++ Z) = before ++ read (p.advance P) Z := by
  induction before generalizing p P with
  | nil =>
      subst hP
      rfl
  | cons t before ih =>
      obtain ⟨b, rest, hinput⟩ : ∃ b rest, P ++ Y = b :: rest := by
        cases hcase : P ++ Y with
        | nil =>
            rw [hcase, read_nil] at h
            cases h
        | cons b rest => exact ⟨b, rest, rfl⟩
      rw [hinput, read_cons, List.cons_append, List.cons.injEq] at h
      obtain ⟨hfirst, h⟩ := h
      have hspan : t.span = ⟨p, p.advance t.literal⟩ := by rw [← hfirst]; rfl
      have hkind : t.kind = (Scan.token b rest).1 := by rw [← hfirst]; rfl
      have hliteral : t.literal ++ (Scan.token b rest).2 = b :: rest := by
        rw [← hfirst]
        exact first_literal_append p b rest
      have hne : t.literal ≠ [] := by
        rw [← hfirst]
        exact first_literal_ne_nil p b rest
      rw [hfirst, hspan] at h
      subst hP
      rw [List.flatMap_cons, List.append_assoc, ← hliteral] at hinput
      have hleft := List.append_cancel_left hinput
      rw [← hleft] at h hliteral
      obtain ⟨c, text, htext⟩ := List.exists_cons_of_ne_nil hne
      rw [htext, List.cons_append, List.cons.injEq, ← List.append_assoc] at hliteral
      obtain ⟨rfl, rfl⟩ := hliteral
      have hnumber : before.flatMap literal = [] → t.kind ≠ .intLiteral := by
        intro hnil
        cases before with
        | nil => exact hlast t rfl
        | cons u before =>
            obtain ⟨_, b, rest, _, hu⟩ :=
              exists_first_of_mem_read (h ▸ List.mem_append_left _ List.mem_cons_self)
            rw [List.flatMap_cons, List.append_eq_nil_iff, hu] at hnil
            exact absurd hnil.1 (first_literal_ne_nil _ b rest)
      have htoken := token_ending hY hZ hsealed (hkinds t List.mem_cons_self) hnumber
        (Prod.ext hkind.symm hleft.symm)
      have hrest : (t :: before).flatMap literal ++ Z =
          c :: (text ++ before.flatMap literal ++ Z) := by
        rw [List.flatMap_cons, htext, List.cons_append, List.cons_append]
      have hadvance : ∀ q : Position, q.advance ((t :: before).flatMap literal) =
          (q.advance t.literal).advance (before.flatMap literal) := by
        intro q
        rw [List.flatMap_cons, Position.advance_append]
      rw [hadvance] at h
      rw [hadvance, hrest, read_cons, htoken, first_eq htoken (by rw [htext]; simp) hspan, hspan,
        ih h rfl (fun u hu => hkinds u (List.mem_cons_of_mem _ hu)) ?_]
      · rfl
      · exact fun u hu => hlast u (List.mem_getLast?_cons hu)

end Token

end DotCompletion
