import DotCompletion.Proofs.Token.Spaced

/-!
# The last word of a source

A source that ends in a name and a semicolon can end in other ways behind the same text.
The name can go on with a dot and another name, or give way to a number that takes the dot.
The tokens in front of it stay what they are (`Token.read_other_ending`).
-/

namespace DotCompletion

namespace Lexeme

open Scan Bytes

/-- The token that stands at a position. -/
def place (l : Lexeme) (p : Position) : Token := ⟨l.kind, ⟨p, p.advance l.text⟩, l.text⟩

/-- Tokens one right behind the other. -/
def places (p : Position) : List Lexeme → List Token
  | [] => []
  | l :: row => l.place p :: places (p.advance l.text) row

/-- The token that stands behind a text. -/
def behind (l : Lexeme) (front : Bytes) : Token := l.place (Position.origin.advance front)

theorem places_behind (l : Lexeme) (row : List Lexeme) (front : Bytes) :
    places (Position.origin.advance front) (l :: row) =
      l.behind front :: places (Position.origin.advance (front ++ l.text)) row := by
  rw [places, Position.advance_append]
  rfl

theorem behind_lo (l : Lexeme) (front : Bytes) : (l.behind front).lo = front.length :=
  Position.origin_advance_offset front

theorem behind_hi (l : Lexeme) (front : Bytes) :
    (l.behind front).hi = front.length + l.text.length := by
  rw [Token.hi, behind, place, Position.advance_offset, Position.origin_advance_offset]

/-- Each text is a token of its own in front of those behind it. -/
def ReadInRow : List Lexeme → Prop
  | [] => True
  | l :: row => l.ReadsBefore (row.flatMap text) ∧ ReadInRow row

theorem ReadsBefore.read {l : Lexeme} {rest : Bytes} (h : l.ReadsBefore rest) (p : Position) :
    Token.read p (l.text ++ rest) = l.place p :: Token.read (p.advance l.text) rest := by
  obtain ⟨b, tail, htext, htoken⟩ := h
  have hsplit : b :: (tail ++ rest) = l.text ++ rest := by rw [htext, List.cons_append]
  rw [← hsplit, Token.read_cons, htoken, @Token.first_eq (l.place p) _ _ _ htoken hsplit p rfl]
  rfl

/-- A text that is read to its end is the only token of its source. -/
theorem ReadsBefore.alone {l : Lexeme} (h : l.ReadsBefore []) :
    Token.read .origin l.text = [l.place .origin] := by
  have hread := h.read .origin
  rwa [List.append_nil, Token.read_nil] at hread

theorem ReadInRow.read {row : List Lexeme} (h : ReadInRow row) (p : Position) :
    Token.read p (row.flatMap text) = places p row := by
  induction row generalizing p with
  | nil => exact Token.read_nil p
  | cons l row ih => rw [List.flatMap_cons, h.1.read, ih h.2, places]

/-- A name in front of a semicolon. -/
def closed (name : Bytes) : List Lexeme := [⟨.identifier, name⟩, sign .semicolon]

/-- A name, a dot and another name in front of a semicolon. -/
def qualified (name behind : Bytes) : List Lexeme :=
  ⟨.identifier, name⟩ :: sign .dot :: closed behind

/-- A number that ends in a dot, and a name in front of a semicolon. -/
def broken (digits behind : Bytes) : List Lexeme :=
  ⟨.floatLiteral, digits ++ ['.'.toUInt8]⟩ :: closed behind

variable {name behind digits : Bytes}

theorem IsName.head_letter (h : IsName name) (rest : Bytes) :
    ∀ c ∈ (name ++ rest).head?, isLetter c = true := by
  obtain ⟨b, tail, rfl⟩ := List.exists_cons_of_ne_nil h.text_ne
  exact h.letter

theorem IsName.beginsWord (h : IsName name) (rest : Bytes) : BeginsWord (name ++ rest) := by
  obtain ⟨b, tail, rfl⟩ := List.exists_cons_of_ne_nil h.text_ne
  exact ⟨b, tail ++ rest, rfl, h.word b List.mem_cons_self⟩

theorem closed_reads (h : IsName name) : ReadInRow (closed name) :=
  ⟨h.readsBefore (by decide) (by decide), sign_readsBefore (by decide) nofun nofun, trivial⟩

/-- A dot in front of a name is a token of its own. -/
theorem dot_readsBefore (hbehind : IsName behind) (rest : Bytes) :
    (sign .dot).ReadsBefore (behind ++ rest) := by
  have hletter := hbehind.head_letter rest
  refine sign_readsBefore (by decide) ?_ ?_
  · intro c hc
    by_contra hdigit
    have hnot := not_isLetter_of_isDigit (by simpa using hdigit)
    rw [hletter c hc] at hnot
    cases hnot
  · intro c hc s hs hmem
    have hnot := signSpellings_apart s hs c hmem
    rw [isWordByte, hletter c hc] at hnot
    cases hnot

/-- A name in front of a dot is a token of its own. -/
theorem IsName.readsBefore_dot (h : IsName name) (rest : Bytes) :
    ReadsBefore ⟨.identifier, name⟩ ((sign .dot).text ++ rest) := by
  refine h.readsBefore ?_ (sealedTail?_eq_none ?_)
  · rintro _ ⟨⟩
    decide
  · rintro _ ⟨⟩
    decide

theorem qualified_reads (h : IsName name) (hbehind : IsName behind) :
    ReadInRow (qualified name behind) :=
  ⟨h.readsBefore_dot _, dot_readsBefore hbehind _, closed_reads hbehind⟩

theorem broken_reads (hne : digits ≠ []) (hdigits : ∀ d ∈ digits, isDigit d = true)
    (hbehind : IsName behind)
    (hfirst : ∀ z ∈ behind.head?, z ≠ '_'.toUInt8 ∧ ∀ c ∈ fractionMarks, z ≠ c.toUInt8) :
    ReadInRow (broken digits behind) := by
  obtain ⟨b, digits, rfl⟩ := List.exists_cons_of_ne_nil hne
  have hb := hdigits b List.mem_cons_self
  have hbar : ∀ d, isDigit d = true → isDigitOrBar d = true := by simp +contextual [isDigitOrBar]
  refine ⟨⟨b, digits ++ ['.'.toUInt8], rfl, ?_⟩, closed_reads hbehind⟩
  rw [token_of_startsNumber (.inl hb), List.append_assoc, List.singleton_append]
  refine number_of_point (hbar b hb) (fun d hd => hbar d (hdigits d (List.mem_cons_of_mem _ hd))) ?_
  intro z hz
  have hhead : z ∈ behind.head? := by
    obtain ⟨c, tail, rfl⟩ := List.exists_cons_of_ne_nil hbehind.text_ne
    exact hz
  refine ⟨?_, (hfirst z hhead).2⟩
  have hletter := hbehind.letter z hhead
  by_contra hdigit
  simp only [isDigitOrBar, Bool.not_eq_false, Bool.or_eq_true, beq_iff_eq, (hfirst z hhead).1,
    or_false] at hdigit
  rw [not_isLetter_of_isDigit hdigit] at hletter
  cases hletter

end Lexeme

/-! ## Other endings -/

namespace Scan

open Bytes

variable {text rest : Bytes}

theorem sealedTail?_eq_none_iff {input : Bytes} :
    sealedTail? input = none ↔
      ∀ rest, input = sealedTail ++ rest → (rest.head?.map isWordByte).getD false = true := by
  unfold sealedTail?
  split
  next rest hrest =>
      rw [after?_eq_some] at hrest
      subst hrest
      simp
  next hnone =>
      simp only [true_iff]
      intro rest hrest
      rw [after?_eq_some.mpr hrest] at hnone
      cases hnone

theorem sealedTail?_append (hrest : ∀ c ∈ rest.head?, c ∉ sealedTail)
    (h : ∀ left, text = sealedTail ++ left →
      ((left ++ rest).head?.map isWordByte).getD false = true) :
    sealedTail? (text ++ rest) = none := by
  rw [sealedTail?_eq_none_iff]
  intro left hleft
  obtain ⟨left', rfl⟩ := (prefix_append_iff fun c hc =>
    not_prefix_of_not_mem (hrest c hc) text).mp ⟨left, hleft.symm⟩
  rw [List.append_assoc] at hleft
  rw [← List.append_cancel_left hleft]
  exact h left' rfl

/-- Behind a name it does not matter what ends the word. -/
theorem sealedTail?_of_name {name rest' : Bytes}
    (hrest : (rest.head?.map isWordByte).getD false = false)
    (hrest' : ∀ c ∈ rest'.head?, c ∉ sealedTail) (r : Bytes)
    (h : sealedTail? (r ++ (name ++ rest)) = none) : sealedTail? (r ++ (name ++ rest')) = none := by
  rw [← List.append_assoc] at h ⊢
  refine sealedTail?_append hrest' fun left hleft => ?_
  rw [hleft, List.append_assoc, sealedTail?_eq_none_iff] at h
  have hhead := h _ rfl
  cases left with
  | nil =>
      rw [List.nil_append, hrest] at hhead
      cases hhead
  | cons c left => exact hhead

/-- In front of a digit there is no end of a word. -/
theorem sealedTail?_of_digit (hrest : ∃ d tail, rest = d :: tail ∧ isDigit d = true) (r : Bytes)
    (h : sealedTail? (r ++ text) = none) : sealedTail? (r ++ rest) = none := by
  have hapart : ∀ d ∈ sealedTail, isDigit d = false := by decide
  obtain ⟨d, tail, rfl, hd⟩ := hrest
  refine sealedTail?_append ?_ fun left hleft => ?_
  · rintro _ ⟨⟩ hmem
    rw [hapart d hmem] at hd
    cases hd
  · cases left with
    | nil => simp [isWordByte, hd]
    | cons c left =>
        rw [hleft, List.append_assoc, sealedTail?_eq_none_iff] at h
        have hhead := h _ rfl
        exact hhead

end Scan

namespace Token

open Lexeme Scan

/-- The tokens that the grammar sees. -/
def visible (row : List Token) : List Token := row.filter fun t => !t.kind.isTrivia

theorem visible_append (front back : List Token) :
    visible (front ++ back) = visible front ++ visible back := List.filter_append ..

theorem visible_places {row : List Lexeme} (h : ∀ l ∈ row, l.kind.isTrivia = false) (p : Position) :
    visible (places p row) = places p row := by
  induction row generalizing p with
  | nil => rfl
  | cons l row ih =>
      rw [places, visible, List.filter_cons_of_pos (by simp [place, h l List.mem_cons_self])]
      exact congrArg _ (ih (fun m hm => h m (List.mem_cons_of_mem _ hm)) _)

variable {P name : Bytes} {t : Token}

/-- A source whose last word is a name. -/
structure LastWord (P name : Bytes) (before : List Token) : Prop where
  isName : IsName name
  reads : read .origin (P ++ (closed name).flatMap text) =
    before ++ places (Position.origin.advance P) (closed name)
  text : before.flatMap literal = P

theorem isName_of_token {b : UInt8} {rest left : Bytes}
    (h : Scan.token b rest = (.identifier, left)) (hsplit : b :: rest = name ++ left)
    (hne : name ≠ []) : IsName name := by
  have hletter : isLetter b = true := isLetter_of_isIdentifier (by rw [h]; rfl)
  rw [token_of_isLetter hletter] at h
  obtain ⟨hdrop, hword, _⟩ := word_eq_of_ne_nonSealed h (by decide)
  have htake : (b :: rest).takeWhile isWordByte = name := by
    refine @List.append_cancel_right _ _ left _ ?_
    rw [← hsplit, ← hdrop]
    exact List.takeWhile_append_dropWhile
  refine ⟨?_, ?_, by rw [← htake, hword], hne⟩
  · obtain ⟨c, tail, rfl⟩ := List.exists_cons_of_ne_nil hne
    rintro _ ⟨⟩
    rw [List.cons_append, List.cons.injEq] at hsplit
    exact hsplit.1 ▸ hletter
  · rw [← htake]
    exact List.all_eq_true.mp List.all_takeWhile

/-- A name that stands where the text `P` ends is the last word. -/
theorem exists_lastWord (h : t ∈ significant (P ++ (closed name).flatMap text))
    (hkind : t.kind = .identifier) (hlo : t.lo = P.length) (hliteral : t.literal = name) :
    t = Lexeme.place ⟨.identifier, name⟩ (Position.origin.advance P) ∧
      ∃ before, LastWord P name before := by
  obtain ⟨before, back, hread⟩ := List.append_of_mem (List.mem_filter.mp h).1
  obtain ⟨rest, hsource, hback⟩ := read_eq_append hread
  cases rest with
  | nil =>
      rw [read_nil] at hback
      cases hback
  | cons b rest =>
      rw [read_cons, List.cons.injEq] at hback
      obtain ⟨rfl, hback⟩ := hback
      have hlength : P.length = (before.flatMap literal).length := by
        rw [← hlo, lo, first, Position.origin_advance_offset]
      obtain ⟨htext, hrest⟩ := List.append_inj hsource hlength
      have hleft : (Scan.token b rest).2 = (sign .semicolon).text := by
        have happend := first_literal_append (Position.origin.advance (before.flatMap literal)) b rest
        rw [hliteral, ← hrest] at happend
        simpa [closed] using happend
      have hname : IsName name := by
        refine isName_of_token (Prod.ext hkind hleft) ?_ ?_
        · rw [← hrest]
          simp [closed]
        · rw [← hliteral]
          exact first_literal_ne_nil _ b rest
      subst htext
      have hreads := (closed_reads hname).read (Position.origin.advance (before.flatMap literal))
      have hrow := read_cons (Position.origin.advance (before.flatMap literal)) b rest
      rw [← hrest, hreads, ← hback] at hrow
      exact ⟨(List.cons.inj hrow).1.symm, before, hname, by rw [hread, ← hrow], rfl⟩

namespace LastWord

variable {before : List Token}

/-- The tokens in front of the last word stay what they are in front of another row. -/
theorem read_other (h : LastWord P name before) {row : List Lexeme} (hrow : ReadInRow row)
    (hbegins : BeginsWord (row.flatMap Lexeme.text))
    (hsealed : ∀ r, sealedTail? (r ++ (closed name).flatMap Lexeme.text) = none →
      sealedTail? (r ++ row.flatMap Lexeme.text) = none)
    (hkinds : ∀ t ∈ before, t.kind ∈ steadyKinds)
    (hlast : ∀ t ∈ before.getLast?, t.kind ≠ .intLiteral) :
    read .origin (P ++ row.flatMap Lexeme.text) = before ++ places (Position.origin.advance P) row := by
  have hbeginsName : BeginsWord ((closed name).flatMap Lexeme.text) := h.isName.beginsWord _
  have hclosed := (closed_reads h.isName).read (Position.origin.advance P)
  rw [← hrow.read]
  refine read_ending hbeginsName hbegins hsealed ?_ h.text hkinds hlast
  rw [h.reads, ← hclosed]

variable {behind digits : Bytes}

theorem read_qualified (h : LastWord P name before) (hbehind : IsName behind)
    (hkinds : ∀ t ∈ before, t.kind ∈ steadyKinds)
    (hlast : ∀ t ∈ before.getLast?, t.kind ≠ .intLiteral) :
    read .origin (P ++ (qualified name behind).flatMap Lexeme.text) =
      before ++ places (Position.origin.advance P) (qualified name behind) := by
  refine h.read_other (qualified_reads h.isName hbehind) (h.isName.beginsWord _) ?_ hkinds hlast
  refine sealedTail?_of_name (by decide) ?_
  rintro _ ⟨⟩
  decide

theorem read_broken (h : LastWord P name before) (hne : digits ≠ [])
    (hdigits : ∀ d ∈ digits, isDigit d = true) (hbehind : IsName behind)
    (hfirst : ∀ z ∈ behind.head?, z ≠ '_'.toUInt8 ∧ ∀ c ∈ fractionMarks, z ≠ c.toUInt8)
    (hkinds : ∀ t ∈ before, t.kind ∈ steadyKinds)
    (hlast : ∀ t ∈ before.getLast?, t.kind ≠ .intLiteral) :
    read .origin (P ++ (broken digits behind).flatMap Lexeme.text) =
      before ++ places (Position.origin.advance P) (broken digits behind) := by
  have hrow := broken_reads hne hdigits hbehind hfirst
  obtain ⟨d, digits, rfl⟩ := List.exists_cons_of_ne_nil hne
  have hd := hdigits d List.mem_cons_self
  exact h.read_other hrow ⟨d, _, rfl, by simp [isWordByte, hd]⟩
    (sealedTail?_of_digit ⟨d, _, rfl, hd⟩) hkinds hlast

end LastWord

end Token

end DotCompletion
