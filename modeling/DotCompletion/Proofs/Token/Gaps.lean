import Mathlib.Data.List.Infix
import Mathlib.Data.List.TakeWhile
import DotCompletion.Proofs.Token.LastWord

/-!
# Gaps between tokens

White space and comments stand between the tokens of a source and are not seen by the grammar
(`Lexeme.row_gap`). No gap is needed behind a word that no byte of a word follows, nor behind a
sign that does not go on with the byte that follows. `Lexeme.Lays` relates a row of lexemes to the
sources that put them one behind the other with gaps between them and keep words apart.
-/

namespace DotCompletion

namespace Scan

open Bytes

/-- A text without the sign that closes a comment ends where that sign stands behind it. -/
theorem blockComment_close {text : Bytes} (h : ¬Bytes.ofString "*/" <:+: text) (rest : Bytes) :
    blockComment (text ++ (Bytes.ofString "*/" ++ rest)) = rest := by
  have hclose : Bytes.ofString "*/" = ['*'.toUInt8, '/'.toUInt8] := by decide
  have hstar : '*'.toUInt8 ≠ '/'.toUInt8 := by decide
  rw [hclose] at h ⊢
  induction text with
  | nil => rw [List.nil_append, List.cons_append, blockComment, if_pos ⟨rfl, rfl⟩]; rfl
  | cons b text ih =>
      rw [List.cons_append, blockComment, if_neg]
      · exact ih fun hinside => h (hinside.trans (List.suffix_cons b text).isInfix)
      · rintro ⟨rfl, hstart⟩
        cases text with
        | nil => simp [startsWith, hstar] at hstart
        | cons c text =>
            rw [List.cons_append, startsWith, List.head?_cons, beq_iff_eq] at hstart
            cases hstart
            exact h (List.prefix_append ['*'.toUInt8, '/'.toUInt8] text).isInfix

theorem token_blockComment (body : Bytes) :
    token '/'.toUInt8 ('*'.toUInt8 :: body) = (.comment, blockComment body) := by
  rw [token, if_neg, if_pos ⟨rfl, rfl⟩]
  · rfl
  · rintro ⟨-, hstart⟩
    exact absurd (beq_iff_eq.mp hstart) (show some _ ≠ some _ by decide)

theorem token_lineComment (body : Bytes) :
    token '/'.toUInt8 ('/'.toUInt8 :: body) = (.lineComment, lineComment body) := by
  rw [token, if_pos ⟨rfl, rfl⟩, lineComment, List.dropWhile_cons_of_pos (by decide)]
  rfl

theorem lineComment_newline {text : Bytes} (h : '\n'.toUInt8 ∉ text) (rest : Bytes) :
    lineComment (text ++ '\n'.toUInt8 :: rest) = '\n'.toUInt8 :: rest := by
  have htext : ∀ b ∈ text, (b != '\n'.toUInt8) = true := by
    intro b hb
    rw [bne_iff_ne]
    rintro rfl
    exact h hb
  rw [lineComment, List.dropWhile_append_of_pos htext, List.dropWhile_cons_of_neg (by simp)]

theorem token_space {b : UInt8} (h : isSpace b = true) (rest : Bytes) :
    token b rest = (.whitespace, rest.dropWhile isSpace) := by
  have hslash : b ≠ '/'.toUInt8 := by
    rintro rfl
    exact absurd h (by decide)
  simp only [token, hslash, false_and, if_false, h, if_true]

/-- White space and comments that are closed. -/
inductive IsGap : Bytes → Prop
  | nothing : IsGap []
  | space {b : UInt8} (hb : isSpace b = true) {gap : Bytes} (h : IsGap gap) : IsGap (b :: gap)
  | line {text : Bytes} (htext : '\n'.toUInt8 ∉ text) {gap : Bytes} (h : IsGap gap) :
      IsGap (Bytes.ofString "//" ++ (text ++ '\n'.toUInt8 :: gap))
  | block {text : Bytes} (htext : ¬Bytes.ofString "*/" <:+: text) {gap : Bytes} (h : IsGap gap) :
      IsGap (Bytes.ofString "/*" ++ (text ++ (Bytes.ofString "*/" ++ gap)))

/-- What may stand behind the last token: a gap, and perhaps a comment up to the end. -/
inductive IsEnd : Bytes → Prop
  | gap {gap : Bytes} (h : IsGap gap) : IsEnd gap
  | line {gap text : Bytes} (h : IsGap gap) (htext : '\n'.toUInt8 ∉ text) :
      IsEnd (gap ++ (Bytes.ofString "//" ++ text))

/-- The bytes that gaps begin with. -/
def gapStarts (b : UInt8) : Bool := isSpace b || b == '/'.toUInt8

theorem IsGap.head {gap : Bytes} (h : IsGap gap) : ∀ b ∈ gap.head?, gapStarts b = true := by
  cases h with
  | nothing => nofun
  | space hb =>
      rintro _ ⟨⟩
      rw [gapStarts, hb, Bool.true_or]
  | line | block =>
      rintro _ ⟨⟩
      decide

theorem IsEnd.head {rest : Bytes} (h : IsEnd rest) : ∀ b ∈ rest.head?, gapStarts b = true := by
  cases h with
  | gap h => exact h.head
  | @line gap text h =>
      cases gap with
      | nil =>
          rintro _ ⟨⟩
          decide
      | cons b gap => exact h.head

end Scan

namespace Lexeme

open Scan Bytes

/-! ## Rows and gaps -/

/-- What the grammar sees does not depend on where the input stands. -/
theorem row_congr (p q : Position) (input : Bytes) : row p input = row q input := by
  induction p, input using Token.read.induct generalizing q with
  | case1 p => rw [row, row, Token.read_nil, Token.read_nil]
  | case2 p b rest t ih =>
      have hkind : (Token.first p b rest).kind = (Token.first q b rest).kind := rfl
      have hlexeme : (Token.first p b rest).lexeme = (Token.first q b rest).lexeme := rfl
      have hrest := ih (Token.first q b rest).span.stop
      rw [row, row] at hrest
      rw [row, row, Token.read_cons, Token.read_cons, List.filter_cons, List.filter_cons, hkind]
      split
      next => rw [List.map_cons, List.map_cons, hlexeme, hrest]
      next => exact hrest

theorem row_of_trivia {b : UInt8} {rest left : Bytes} {kind : TokenKind}
    (h : Scan.token b rest = (kind, left)) (hkind : kind.isTrivia = true) (p q : Position) :
    row p (b :: rest) = row q left := by
  have htrivia : (Token.first p b rest).kind.isTrivia = true := by
    rw [show (Token.first p b rest).kind = kind from congrArg Prod.fst h, hkind]
  rw [row, Token.read_cons, List.filter_cons_of_neg (by simp [htrivia]), ← row, h]
  exact row_congr ..

theorem row_of_readsBefore {l : Lexeme} {rest : Bytes} (h : l.ReadsBefore rest)
    (hvisible : l.kind.isTrivia = false) (p q : Position) :
    row p (l.text ++ rest) = l :: row q rest := by
  have hkind : (l.place p).kind.isTrivia = false := hvisible
  rw [row, h.read, List.filter_cons_of_pos (by simp [hkind]), List.map_cons, ← row]
  exact congrArg _ (row_congr ..)

theorem row_space {b : UInt8} (h : isSpace b = true) (rest : Bytes) (p q : Position) :
    row p (b :: rest) = row q rest := by
  rw [row_of_trivia (token_space h rest) rfl p q]
  cases rest with
  | nil => rfl
  | cons c rest =>
      by_cases hc : isSpace c = true
      · rw [List.dropWhile_cons_of_pos hc, row_of_trivia (token_space hc rest) rfl q q]
      · rw [List.dropWhile_cons_of_neg hc]

/-- The grammar does not see a gap. -/
theorem row_gap {gap : Bytes} (h : IsGap gap) (rest : Bytes) (p q : Position) :
    row p (gap ++ rest) = row q rest := by
  induction h generalizing p with
  | nothing => exact row_congr ..
  | space hb _ ih => exact (row_space hb _ p q).trans (ih q)
  | @line text htext gap _ ih =>
      have hleft := lineComment_newline htext (gap ++ rest)
      rw [show Bytes.ofString "//" = ['/'.toUInt8, '/'.toUInt8] by decide]
      simp only [List.cons_append, List.nil_append, List.append_assoc]
      rw [row_of_trivia (token_lineComment _) rfl p q, hleft]
      exact (row_space (by decide) _ q q).trans (ih q)
  | @block text htext gap _ ih =>
      have hleft := blockComment_close htext (gap ++ rest)
      rw [show Bytes.ofString "/*" = ['/'.toUInt8, '*'.toUInt8] by decide]
      simp only [List.cons_append, List.nil_append, List.append_assoc]
      rw [row_of_trivia (token_blockComment _) rfl p q, hleft]
      exact ih q

/-- Nothing is seen behind the last token. -/
theorem row_end {rest : Bytes} (h : IsEnd rest) (p : Position) : row p rest = [] := by
  have hnil : row p [] = [] := by
    rw [row, Token.read_nil]
    rfl
  cases h with
  | gap h =>
      rw [← List.append_nil rest, row_gap h [] p p, hnil]
  | @line gap text h htext =>
      have hleft : lineComment text = [] := by
        rw [lineComment, List.dropWhile_eq_nil_iff]
        intro b hb
        rw [bne_iff_ne]
        rintro rfl
        exact htext hb
      rw [row_gap h _ p p, show Bytes.ofString "//" = ['/'.toUInt8, '/'.toUInt8] by decide]
      simp only [List.cons_append, List.nil_append]
      rw [row_of_trivia (token_lineComment _) rfl p p, hleft, hnil]

/-! ## Words and signs -/

/-- A name or a word of the language. -/
structure IsWord (l : Lexeme) : Prop where
  letter : ∀ b ∈ l.text.head?, isLetter b = true
  word : ∀ b ∈ l.text, isWordByte b = true
  text_ne : l.text ≠ []
  kind : TokenKind.ofWord l.text = l.kind

instance (l : Lexeme) : Decidable l.IsWord :=
  decidable_of_iff ((∀ b ∈ l.text.head?, isLetter b = true) ∧ (∀ b ∈ l.text, isWordByte b = true) ∧
      l.text ≠ [] ∧ TokenKind.ofWord l.text = l.kind)
    ⟨fun ⟨letter, word, text_ne, kind⟩ => ⟨letter, word, text_ne, kind⟩,
      fun ⟨letter, word, text_ne, kind⟩ => ⟨letter, word, text_ne, kind⟩⟩

theorem IsName.isWord {text : Bytes} (h : IsName text) : IsWord ⟨.identifier, text⟩ :=
  ⟨h.letter, h.word, h.text_ne, h.ordinary⟩

theorem IsWord.readsBefore {l : Lexeme} (h : l.IsWord) {rest : Bytes}
    (hrest : ∀ c ∈ rest.head?, isWordByte c = false ∧ c ≠ '-'.toUInt8) : l.ReadsBefore rest := by
  have htail : ∀ c ∈ sealedTail, isWordByte c = true ∨ c = '-'.toUInt8 := by decide
  have hsealed : sealedTail? rest = none := by
    refine sealedTail?_eq_none fun c hc hmem => ?_
    rcases htail c hmem with hword | hdash
    · exact Bool.eq_false_iff.mp (hrest c hc).1 hword
    · exact (hrest c hc).2 hdash
  have hread := word_readsBefore h.letter h.word h.text_ne (fun c hc => (hrest c hc).1) hsealed
  rwa [h.kind] at hread

/-- The bytes with which a sign goes on behind the text. -/
def continuations (text : Bytes) : List UInt8 :=
  spellings.filterMap fun s => if text <+: s then s[text.length]? else none

theorem ends_of_not_mem {text : Bytes} {c : UInt8} (h : c ∉ continuations text) : Ends text c := by
  intro s hs hstart
  refine h (List.mem_filterMap.mpr ⟨s, hs, ?_⟩)
  obtain ⟨more, rfl⟩ := hstart
  rw [if_pos, List.append_assoc, List.getElem?_append_right le_rfl]
  · simp
  · rw [List.append_assoc]
    exact List.prefix_append _ _

/-! ## Layouts -/

/-- The source has the lexemes one behind the other, with gaps between them. No byte of a word
follows a word. -/
inductive Lays : List Lexeme → Bytes → Prop
  | nil {rest : Bytes} (h : IsEnd rest) : Lays [] rest
  | cons {gap rest : Bytes} {l : Lexeme} {row : List Lexeme} (hgap : IsGap gap)
      (hapart : l.IsWord → ∀ c ∈ rest.head?, isWordByte c = false) (h : Lays row rest) :
      Lays (l :: row) (gap ++ (l.text ++ rest))

/-- A gap stands in front, or else the first lexeme does. -/
theorem Lays.cases_head {row : List Lexeme} {source : Bytes} (h : Lays row source) :
    (∀ c ∈ source.head?, gapStarts c = true) ∨
      ∃ l row' rest, row = l :: row' ∧ source = l.text ++ rest ∧ Lays row' rest := by
  cases h with
  | nil h => exact .inl h.head
  | @cons gap rest l row hgap _ h =>
      cases gap with
      | nil => exact .inr ⟨l, row, rest, rfl, rfl, h⟩
      | cons b gap => exact .inl hgap.head

end Lexeme

end DotCompletion
