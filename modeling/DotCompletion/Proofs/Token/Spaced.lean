import DotCompletion.Proofs.Token.Endings

/-!
# Tokens with blanks between them

Texts that are tokens of their own in front of a blank are read back from a source
in which a blank stands between neighbours (`Token.significant_spaced`). Names,
decimal numbers and signs are such texts.
-/

namespace DotCompletion

/-- What the grammar sees of a token. -/
structure Lexeme where
  kind : TokenKind
  text : Bytes
deriving DecidableEq, Repr

/-- The token without its place. -/
def Token.lexeme (t : Token) : Lexeme := ⟨t.kind, t.literal⟩

/-- Nothing, or a blank and more. -/
def Bytes.Parted (rest : Bytes) : Prop := ∀ b ∈ rest.head?, b = ' '.toUInt8

namespace Bytes

variable {rest : Bytes}

theorem parted_nil : Parted [] := nofun

theorem parted_cons (rest : Bytes) : Parted (' '.toUInt8 :: rest) := by
  rintro _ ⟨⟩
  rfl

end Bytes

namespace Lexeme

open Scan Bytes

/-- In front of `rest` the text is a token of its own. -/
def ReadsBefore (l : Lexeme) (rest : Bytes) : Prop :=
  ∃ b tail, l.text = b :: tail ∧ Scan.token b (tail ++ rest) = (l.kind, rest)

/-- In front of a blank the text is a token of its own. -/
structure Readable (l : Lexeme) : Prop where
  visible : l.kind.isTrivia = false
  reads : ∃ b tail, l.text = b :: tail ∧
    ∀ rest : Bytes, rest.Parted → Scan.token b (tail ++ rest) = (l.kind, rest)

/-- A name that is no word of the language. -/
structure IsName (text : Bytes) : Prop where
  letter : ∀ b ∈ text.head?, isLetter b = true
  word : ∀ b ∈ text, isWordByte b = true
  ordinary : TokenKind.ofWord text = .identifier
  text_ne : text ≠ []

instance (text : Bytes) : Decidable (IsName text) :=
  decidable_of_iff ((∀ b ∈ text.head?, isLetter b = true) ∧ (∀ b ∈ text, isWordByte b = true) ∧
      TokenKind.ofWord text = .identifier ∧ text ≠ [])
    ⟨fun ⟨letter, word, ordinary, text_ne⟩ => ⟨letter, word, ordinary, text_ne⟩,
      fun ⟨letter, word, ordinary, text_ne⟩ => ⟨letter, word, ordinary, text_ne⟩⟩

/-- A word is read whole where no byte of a word follows. -/
theorem word_readsBefore {text rest : Bytes} (hletter : ∀ b ∈ text.head?, isLetter b = true)
    (hword : ∀ b ∈ text, isWordByte b = true) (hne : text ≠ [])
    (hrest : ∀ c ∈ rest.head?, isWordByte c = false) (hsealed : sealedTail? rest = none) :
    ReadsBefore ⟨.ofWord text, text⟩ rest := by
  obtain ⟨b, tail, rfl⟩ := List.exists_cons_of_ne_nil hne
  refine ⟨b, tail, rfl, ?_⟩
  have hstop : rest.takeWhile isWordByte = [] ∧ rest.dropWhile isWordByte = rest := by
    cases rest with
    | nil => exact ⟨rfl, rfl⟩
    | cons c rest =>
        have hc : ¬isWordByte c = true := by simp [hrest c rfl]
        exact ⟨List.takeWhile_cons_of_neg hc, List.dropWhile_cons_of_neg hc⟩
  rw [token_of_isLetter (hletter b rfl), ← List.cons_append, Scan.word,
    List.takeWhile_append_of_pos hword, List.dropWhile_append_of_pos hword, hstop.1, hstop.2,
    List.append_nil]
  simp only [hsealed, ite_self]

theorem IsName.readsBefore {text rest : Bytes} (h : IsName text)
    (hrest : ∀ c ∈ rest.head?, isWordByte c = false) (hsealed : sealedTail? rest = none) :
    ReadsBefore ⟨.identifier, text⟩ rest :=
  h.ordinary ▸ word_readsBefore h.letter h.word h.text_ne hrest hsealed

theorem sealedTail?_eq_none {rest : Bytes} (h : ∀ c ∈ rest.head?, c ∉ sealedTail) :
    sealedTail? rest = none := by
  have hnone : after? sealedTail rest = none :=
    @after?_append [] rest _ fun c hc => not_prefix_of_not_mem (h c hc) []
  rw [sealedTail?, hnone]

theorem IsName.readable {text : Bytes} (h : IsName text) :
    Readable ⟨.identifier, text⟩ where
  visible := rfl
  reads := by
    obtain ⟨b, tail, rfl⟩ := List.exists_cons_of_ne_nil h.text_ne
    refine ⟨b, tail, rfl, fun rest hrest => ?_⟩
    have hblank : ∀ c ∈ rest.head?, isWordByte c = false ∧ c ∉ sealedTail := by
      intro c hc
      rw [hrest c hc]
      decide
    obtain ⟨_, _, heq, htoken⟩ := h.readsBefore (fun c hc => (hblank c hc).1)
      (sealedTail?_eq_none fun c hc => (hblank c hc).2)
    cases heq
    exact htoken

/-- The bytes with which a number goes on behind decimal digits. -/
def numberMarks : List Char := ['x', 'X', 'b', 'B', '.', 'e', 'E', 'f', 'F', 'd', 'D']

theorem startsWithAny_eq_false {cs : List Char} {input : Bytes}
    (h : ∀ b ∈ input.head?, ∀ c ∈ cs, b ≠ c.toUInt8) : startsWithAny cs input = false := by
  rw [startsWithAny, List.any_eq_false]
  intro c hc hstart
  rw [startsWith, beq_iff_eq] at hstart
  exact h _ hstart c hc rfl

/-- A number in decimal goes on behind its first digits. -/
theorem number_eq_decimal {b : UInt8} {digits behind : Bytes} (hb : isDigitOrBar b = true)
    (hdigits : ∀ d ∈ digits, isDigitOrBar d = true)
    (hstop : ∀ z ∈ behind.head?, isDigitOrBar z = false ∧ ∀ c ∈ ['x', 'X', 'b', 'B'],
      z ≠ c.toUInt8) :
    number b (digits ++ behind) = decimalNumber (b :: (digits ++ behind)) ∧
      (b :: (digits ++ behind)).dropWhile isDigitOrBar = behind := by
  have hbase : ∀ cs, (∀ c ∈ cs, c ∈ ['x', 'X', 'b', 'B'] ∧ isDigitOrBar c.toUInt8 = false) →
      startsWithAny cs (digits ++ behind) = false := by
    intro cs hcs
    refine startsWithAny_eq_false ?_
    cases digits with
    | nil => exact fun z hz c hc => (hstop z hz).2 c (hcs c hc).1
    | cons d digits =>
        rintro _ ⟨⟩ c hc rfl
        have hdigit := hdigits _ List.mem_cons_self
        rw [(hcs c hc).2] at hdigit
        cases hdigit
  constructor
  · rw [number, hbase ['x', 'X'] (by decide), hbase ['b', 'B'] (by decide)]
    simp
  · rw [← List.cons_append, List.dropWhile_append_of_pos (by simpa [hb] using hdigits)]
    cases behind with
    | nil => rfl
    | cons z behind => exact List.dropWhile_cons_of_neg (by simp [(hstop z rfl).1])

/-- Digits that nothing continues are a whole number. -/
theorem number_of_digits {b : UInt8} {digits behind : Bytes} (hb : isDigitOrBar b = true)
    (hdigits : ∀ d ∈ digits, isDigitOrBar d = true)
    (hstop : ∀ z ∈ behind.head?, isDigitOrBar z = false ∧ ∀ c ∈ numberMarks, z ≠ c.toUInt8) :
    number b (digits ++ behind) = (.intLiteral, skipAny ['l', 'L'] behind) := by
  have hmarks : ∀ cs, (∀ c ∈ cs, c ∈ numberMarks) → startsWithAny cs behind = false :=
    fun cs hcs => startsWithAny_eq_false fun z hz c hc => (hstop z hz).2 c (hcs c hc)
  have hbases : ∀ c ∈ ['x', 'X', 'b', 'B'], c ∈ numberMarks := by decide
  obtain ⟨hnumber, hwhole⟩ := number_eq_decimal hb hdigits fun z hz =>
    ⟨(hstop z hz).1, fun c hc => (hstop z hz).2 c (hbases c hc)⟩
  have hpoint : hasPoint behind = false := by
    have hdot := hmarks ['.'] (by decide)
    rw [startsWithAny, List.any_cons, List.any_nil, Bool.or_false] at hdot
    rw [hasPoint, hdot, Bool.false_and]
  rw [hnumber]
  simp only [Bool.false_eq_true, if_false, decimalNumber, hwhole, hpoint, fraction,
    exponent, hmarks ['e', 'E'] (by decide), hmarks ['f', 'F', 'd', 'D'] (by decide), decimalEnd,
    Bool.or_self]

/-- The bytes other than digits with which a number goes on behind a point. -/
def fractionMarks : List Char := ['.', 'e', 'E', 'f', 'F', 'd', 'D']

/-- Digits and a point that nothing continues are a broken number. -/
theorem number_of_point {b : UInt8} {digits behind : Bytes} (hb : isDigitOrBar b = true)
    (hdigits : ∀ d ∈ digits, isDigitOrBar d = true)
    (hstop : ∀ z ∈ behind.head?, isDigitOrBar z = false ∧ ∀ c ∈ fractionMarks, z ≠ c.toUInt8) :
    number b (digits ++ '.'.toUInt8 :: behind) = (.floatLiteral, behind) := by
  have hmarks : ∀ cs, (∀ c ∈ cs, c ∈ fractionMarks) → startsWithAny cs behind = false :=
    fun cs hcs => startsWithAny_eq_false fun z hz c hc => (hstop z hz).2 c (hcs c hc)
  obtain ⟨hnumber, hwhole⟩ := @number_eq_decimal _ _ ('.'.toUInt8 :: behind) hb hdigits
    (by rintro _ ⟨⟩; decide)
  have hpoint : hasPoint ('.'.toUInt8 :: behind) = true := by
    have hdot := hmarks ['.'] (by decide)
    rw [startsWithAny, List.any_cons, List.any_nil, Bool.or_false] at hdot
    rw [hasPoint, List.drop_one, List.tail_cons, hdot]
    rfl
  have hfraction : behind.dropWhile isDigitOrBar = behind := by
    cases behind with
    | nil => rfl
    | cons z behind => exact List.dropWhile_cons_of_neg (by simp [(hstop z rfl).1])
  rw [hnumber]
  simp only [decimalNumber, hwhole, hpoint, fraction, if_true, List.drop_one, List.tail_cons,
    hfraction, exponent, hmarks ['e', 'E'] (by decide), hmarks ['f', 'F', 'd', 'D'] (by decide),
    decimalEnd, Bool.false_eq_true, if_false, Bool.true_or]

/-- An integer in decimal, perhaps with the mark of a long one. -/
structure IsDecimal (text : Bytes) : Prop where
  digit : ∀ b ∈ text.head?, isDigit b = true
  mark : text.dropWhile isDigitOrBar ∈ [[], ['l'.toUInt8], ['L'.toUInt8]]
  text_ne : text ≠ []

instance (text : Bytes) : Decidable (IsDecimal text) :=
  decidable_of_iff ((∀ b ∈ text.head?, isDigit b = true) ∧
      text.dropWhile isDigitOrBar ∈ [[], ['l'.toUInt8], ['L'.toUInt8]] ∧ text ≠ [])
    ⟨fun ⟨digit, mark, text_ne⟩ => ⟨digit, mark, text_ne⟩,
      fun ⟨digit, mark, text_ne⟩ => ⟨digit, mark, text_ne⟩⟩

theorem IsDecimal.readable {text : Bytes} (h : IsDecimal text) :
    Readable ⟨.intLiteral, text⟩ where
  visible := rfl
  reads := by
    obtain ⟨b, tail, rfl⟩ := List.exists_cons_of_ne_nil h.text_ne
    refine ⟨b, tail, rfl, fun rest hrest => ?_⟩
    have hb : isDigitOrBar b = true := by simp [isDigitOrBar, h.digit b rfl]
    have hmark := h.mark
    rw [List.dropWhile_cons_of_pos hb] at hmark
    have hsplit := @List.takeWhile_append_dropWhile _ isDigitOrBar tail
    have hdigits : ∀ d ∈ tail.takeWhile isDigitOrBar, isDigitOrBar d = true :=
      List.all_eq_true.mp List.all_takeWhile
    generalize tail.takeWhile isDigitOrBar = digits at hsplit hdigits
    generalize tail.dropWhile isDigitOrBar = mark at hsplit hmark
    subst hsplit
    have hheads : ∀ z ∈ [' '.toUInt8, 'l'.toUInt8, 'L'.toUInt8],
        isDigitOrBar z = false ∧ ∀ c ∈ numberMarks, z ≠ c.toUInt8 := by decide
    have hhead : ∀ z ∈ (mark ++ rest).head?, z ∈ [' '.toUInt8, 'l'.toUInt8, 'L'.toUInt8] := by
      intro z hz
      cases mark with
      | nil => simp [hrest z hz]
      | cons m mark =>
          cases hz
          simp only [List.mem_cons, List.cons.injEq, List.not_mem_nil, reduceCtorEq, or_false,
            false_or] at hmark
          simp [hmark.imp And.left And.left]
    have hskip : skipAny ['l', 'L'] (mark ++ rest) = rest := by
      simp only [List.mem_cons, List.not_mem_nil, or_false] at hmark
      rcases hmark with rfl | rfl | rfl
      · refine if_neg ?_
        rw [@startsWithAny_eq_false _ ([] ++ rest) ?_]
        · simp
        · intro z hz c hc
          rw [hrest z hz]
          revert c
          decide
      · rfl
      · rfl
    rw [token_of_startsNumber (.inl (h.digit b rfl)), List.append_assoc,
      number_of_digits hb hdigits fun z hz => hheads z (hhead z hz), hskip]

/-- A sign, spelled as it should be. -/
def sign (kind : TokenKind) : Lexeme := ⟨kind, Bytes.ofString kind.name⟩

/-- The text begins with a byte that only signs begin with, and is no comment. -/
def opensSign : Bytes → Bool
  | [] => false
  | b :: tail =>
    !isSpace b && !isLetter b && !isDigit b && b != '\x27'.toUInt8 && b != '\x22'.toUInt8 &&
      !startsWithAny ['/', '*'] tail && !(tail.head?.map isDigit).getD false

/-- The signs and what opens a comment. -/
def spellings : List Bytes :=
  TokenKind.signSpellings.map Prod.fst ++ [Bytes.ofString "//", Bytes.ofString "/*"]

/-- No sign and no comment goes on with the byte behind the text. -/
def Ends (text : Bytes) (c : UInt8) : Prop := ∀ s ∈ spellings, ¬text ++ [c] <+: s

instance (text : Bytes) (c : UInt8) : Decidable (Ends text c) :=
  inferInstanceAs (Decidable (∀ s ∈ spellings, ¬text ++ [c] <+: s))

theorem token_of_opensSign {b : UInt8} {tail rest : Bytes} (h : opensSign (b :: tail) = true)
    (hdigit : ∀ c ∈ rest.head?, isDigit c = false) (hends : ∀ c ∈ rest.head?, Ends (b :: tail) c) :
    Scan.token b (tail ++ rest) = Scan.sign b (tail ++ rest) := by
  simp only [opensSign, Bool.and_eq_true, Bool.not_eq_true', bne_iff_ne, ne_eq] at h
  obtain ⟨⟨⟨⟨⟨⟨hspace, hletter⟩, hnot⟩, hchar⟩, hstring⟩, hcomment⟩, hnext⟩ := h
  simp only [startsWithAny, List.any_cons, List.any_nil, Bool.or_false, Bool.or_eq_false_iff]
    at hcomment
  have hopens : ∀ c ∈ ['/', '*'], startsWith c tail = false →
      ¬(b = '/'.toUInt8 ∧ startsWith c (tail ++ rest) = true) := by
    rintro c hc htail ⟨rfl, hstart⟩
    cases tail with
    | cons d tail => exact Bool.eq_false_iff.mp htail hstart
    | nil =>
        cases rest with
        | nil => cases hstart
        | cons d rest =>
            have hd : d = c.toUInt8 := by simpa [startsWith] using hstart
            have hspelled : ∀ c ∈ ['/', '*'], ['/'.toUInt8, c.toUInt8] ∈ spellings := by decide
            exact hends d rfl _ (hspelled c hc) (by rw [hd]; exact List.prefix_rfl)
  have hnumber : ((tail ++ rest).head?.map isDigit).getD false = false := by
    cases tail with
    | cons c tail => exact hnext
    | nil =>
        cases rest with
        | nil => rfl
        | cons c rest => exact hdigit c rfl
  have hblock : textBlockMark.isPrefixOf (b :: (tail ++ rest)) = false := by
    have hmark : textBlockMark = '\x22'.toUInt8 :: textBlockMark.drop 1 := by decide
    rw [hmark, List.isPrefixOf, Bool.and_eq_false_iff]
    exact .inl (beq_eq_false_iff_ne.mpr (Ne.symm hstring))
  unfold Scan.token
  rw [if_neg (hopens '/' (by decide) hcomment.1), if_neg (hopens '*' (by decide) hcomment.2),
    hspace, hletter, hnot, hnumber, hblock]
  simp [hchar, hstring]

theorem signSpellings_open : ∀ k ∈ TokenKind.signs, opensSign (Bytes.ofString k.name) = true ∧
    sign? (Bytes.ofString k.name) TokenKind.signSpellings = some (k, []) ∧
    k.isTrivia = false := by
  decide +kernel

/-- A sign ends where neither a digit nor a byte with which it goes on follows. -/
theorem sign_readsBefore_of_ends {kind : TokenKind} (h : kind ∈ TokenKind.signs) {rest : Bytes}
    (hdigit : ∀ c ∈ rest.head?, isDigit c = false)
    (hends : ∀ c ∈ rest.head?, Ends (sign kind).text c) : (sign kind).ReadsBefore rest := by
  obtain ⟨hopens, hfound, _⟩ := signSpellings_open kind h
  cases htext : Bytes.ofString kind.name with
  | nil => simp [htext, opensSign] at hopens
  | cons b tail =>
      have hlong : ∀ c ∈ rest.head?, Ends (b :: tail) c := fun c hc => htext ▸ hends c hc
      have hapart : ∀ c ∈ rest.head?, ∀ s ∈ TokenKind.signSpellings, ¬b :: tail ++ [c] <+: s.1 :=
        fun c hc s hs => hlong c hc s.1 (List.mem_append_left _ (List.mem_map_of_mem hs))
      refine ⟨b, tail, htext, ?_⟩
      rw [htext] at hopens hfound
      rw [token_of_opensSign hopens hdigit hlong, Scan.sign, ← List.cons_append,
        sign?_append hapart, hfound]
      rfl

/-- A sign ends where neither a digit nor a byte of a sign follows. -/
theorem sign_readsBefore {kind : TokenKind} (h : kind ∈ TokenKind.signs) {rest : Bytes}
    (hdigit : ∀ c ∈ rest.head?, isDigit c = false)
    (hapart : ∀ c ∈ rest.head?, ∀ s ∈ TokenKind.signSpellings, c ∉ s.1) :
    (sign kind).ReadsBefore rest := by
  have hspellings : ∀ s ∈ spellings, ∀ c ∈ s, ∃ s' ∈ TokenKind.signSpellings, c ∈ s'.1 := by
    decide +kernel
  refine sign_readsBefore_of_ends h hdigit fun c hc s hs hstart => ?_
  obtain ⟨s', hs', hmem⟩ := hspellings s hs c (hstart.subset (by simp))
  exact hapart c hc s' hs' hmem

theorem sign_readable {kind : TokenKind} (h : kind ∈ TokenKind.signs) : (sign kind).Readable where
  visible := (signSpellings_open kind h).2.2
  reads := by
    have hopens := (signSpellings_open kind h).1
    have hblank : isDigit ' '.toUInt8 = false ∧
        ∀ s ∈ TokenKind.signSpellings, ' '.toUInt8 ∉ s.1 := by decide +kernel
    cases htext : Bytes.ofString kind.name with
    | nil => simp [htext, opensSign] at hopens
    | cons b tail =>
        refine ⟨b, tail, htext, fun rest hrest => ?_⟩
        obtain ⟨_, _, heq, htoken⟩ := @sign_readsBefore kind h rest
          (fun c hc => hrest c hc ▸ hblank.1) (fun c hc => hrest c hc ▸ hblank.2)
        rw [show (sign kind).text = b :: tail from htext] at heq
        cases heq
        exact htoken

/-! ## Reading back -/

/-- The texts with a blank between neighbours. -/
def spaced (row : List Lexeme) : Bytes := [' '.toUInt8].intercalate (row.map text)

theorem Readable.not_isSpace {l : Lexeme} (h : l.Readable) :
    ∀ b ∈ l.text.head?, isSpace b = false := by
  obtain ⟨b, tail, htext, hreads⟩ := h.reads
  rw [htext]
  rintro _ ⟨⟩
  by_contra hspace
  rw [Bool.not_eq_false] at hspace
  have htoken := hreads [] parted_nil
  have hslash : b ≠ '/'.toUInt8 := by
    rintro rfl
    exact absurd hspace (by decide)
  unfold Scan.token at htoken
  simp only [hslash, false_and, if_false, hspace, if_true, Prod.mk.injEq] at htoken
  have hvisible := h.visible
  rw [← htoken.1] at hvisible
  cases hvisible

theorem token_blank {rest : Bytes} (h : ∀ b ∈ rest.head?, isSpace b = false) :
    Scan.token ' '.toUInt8 rest = (.whitespace, rest) := by
  have hdrop : rest.dropWhile isSpace = rest := by
    cases rest with
    | nil => rfl
    | cons b rest => exact List.dropWhile_cons_of_neg (by simp [h b rfl])
  have hslash : ' '.toUInt8 ≠ '/'.toUInt8 := by decide
  have hspace : isSpace ' '.toUInt8 = true := by decide
  unfold Scan.token
  simp only [hslash, false_and, if_false, hspace, if_true, hdrop]

/-- What the grammar sees of an input that stands at a position. -/
def row (p : Position) (input : Bytes) : List Lexeme :=
  ((Token.read p input).filter fun t => !t.kind.isTrivia).map Token.lexeme

theorem row_append {l : Lexeme} (h : l.Readable) {rest : Bytes} (hrest : rest.Parted)
    (p : Position) : ∃ p', row p (l.text ++ rest) = l :: row p' rest := by
  obtain ⟨b, tail, htext, hreads⟩ := h.reads
  have hliteral := Token.first_literal_append p b (tail ++ rest)
  rw [hreads rest hrest, ← List.cons_append] at hliteral
  have hfirst : (Token.first p b (tail ++ rest)).lexeme = l := by
    rw [Token.lexeme, List.append_cancel_right hliteral, ← htext, Token.first, hreads rest hrest]
  have hkind : (Token.first p b (tail ++ rest)).kind = l.kind := congrArg kind hfirst
  refine ⟨(Token.first p b (tail ++ rest)).span.stop, ?_⟩
  rw [htext, row, List.cons_append, Token.read_cons, hreads rest hrest,
    List.filter_cons_of_pos (by simp [hkind, h.visible]), List.map_cons, hfirst, row]

theorem row_blank {rest : Bytes} (h : ∀ b ∈ rest.head?, isSpace b = false) (p : Position) :
    ∃ p', row p (' '.toUInt8 :: rest) = row p' rest := by
  have htoken := token_blank h
  have hkind : (Token.first p ' '.toUInt8 rest).kind = .whitespace := congrArg Prod.fst htoken
  refine ⟨(Token.first p ' '.toUInt8 rest).span.stop, ?_⟩
  rw [row, Token.read_cons, htoken, List.filter_cons_of_neg (by simp [hkind, TokenKind.isTrivia]),
    row]

theorem row_spaced (p : Position) {lexemes : List Lexeme} (h : ∀ l ∈ lexemes, l.Readable) :
    row p (spaced lexemes) = lexemes := by
  induction lexemes generalizing p with
  | nil =>
      rw [spaced, List.map_nil, List.intercalate_nil, row, Token.read_nil]
      rfl
  | cons l lexemes ih =>
      have hl := h l List.mem_cons_self
      have hmore := fun m hm => h m (List.mem_cons_of_mem l hm)
      cases lexemes with
      | nil =>
          obtain ⟨p', hrow⟩ := row_append hl parted_nil p
          rw [spaced, List.map_singleton, List.intercalate_singleton, ← List.append_nil l.text, hrow,
            row, Token.read_nil]
          rfl
      | cons m lexemes =>
          have hsplit : spaced (l :: m :: lexemes) =
              l.text ++ ' '.toUInt8 :: spaced (m :: lexemes) := by
            simp [spaced, List.intercalate_cons_cons]
          have hhead : ∀ b ∈ (spaced (m :: lexemes)).head?, isSpace b = false := by
            obtain ⟨b, tail, htext, _⟩ := (hmore m List.mem_cons_self).reads
            have hspace := (hmore m List.mem_cons_self).not_isSpace
            rw [htext] at hspace
            have hfirst : (spaced (m :: lexemes)).head? = some b := by
              cases lexemes <;> simp [spaced, List.intercalate_cons_cons, htext]
            rw [hfirst]
            exact hspace
          obtain ⟨p', hrow⟩ := row_append hl (parted_cons (spaced (m :: lexemes))) p
          obtain ⟨p'', hblank⟩ := row_blank hhead p'
          rw [hsplit, hrow, hblank, ih p'' hmore]

end Lexeme

/-- What the grammar sees of the tokens ahead. -/
def Cursor.row (c : Cursor) : List Lexeme := c.rest.map Token.lexeme

/-- Texts that are tokens in front of a blank are read back. -/
theorem Cursor.row_ofSource_spaced {lexemes : List Lexeme} (h : ∀ l ∈ lexemes, l.Readable) :
    (ofSource (Lexeme.spaced lexemes)).row = lexemes :=
  Lexeme.row_spaced .origin h

end DotCompletion
