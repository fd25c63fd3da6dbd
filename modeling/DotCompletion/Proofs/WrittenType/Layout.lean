import Mathlib.Data.List.Chain
import DotCompletion.Proofs.Grammar.ClosingAngles
import DotCompletion.Proofs.Token.Gaps
import DotCompletion.Proofs.WrittenType.Basic

/-!
# Types in a source

However the lexemes of a type are laid out, the grammar sees them again, with closing brackets in
one sign where nothing stands between them (`Lexeme.Lays.fuses`). What follows a sign of a type
never goes on with that sign, apart from closing brackets. For an opening bracket and a dot this is
because of the lexeme that stands behind them (`Lexeme.Tidy`).
-/

namespace DotCompletion

open Scan

namespace Lexeme

/-- The words of types. -/
def typeWords : List TokenKind := WrittenType.primitives ++ TypeArgument.bounds

/-- The signs of declarations without values. -/
def declarationSigns : List TokenKind := .semicolon :: .comma :: typeSigns

/-- The lexemes of declarations without values. -/
inductive Declared : Lexeme → Prop
  | name (x : Expr.Name) : Declared ⟨.identifier, x⟩
  | word (kind : TokenKind) (h : kind ∈ typeWords) : Declared (sign kind)
  | sign (kind : TokenKind) (h : kind ∈ declarationSigns) : Declared (sign kind)

/-- The row is one of declarations. A name stands behind a dot, and what begins a type behind an
opening bracket. -/
structure Tidy (row : List Lexeme) : Prop where
  declared : ∀ l ∈ row, l.Declared
  dot : row.IsChain fun l m => l.kind = .dot → m.kind = .identifier
  less : row.IsChain fun l m => l.kind = .less → m.kind ∈ TypeArgument.starts

namespace Declared

variable {l : Lexeme}

theorem word_or_sign (h : l.Declared) :
    l.IsWord ∨ ∃ kind ∈ declarationSigns, l = Lexeme.sign kind := by
  cases h with
  | name x => exact .inl x.2.isWord
  | word kind h =>
      have hwords : ∀ k ∈ typeWords, (Lexeme.sign k).IsWord := by decide +kernel
      exact .inl (hwords kind h)
  | sign kind h => exact .inr ⟨kind, h, rfl⟩

theorem kind_mem (h : l.Declared) : l.kind ∈ .identifier :: (typeWords ++ declarationSigns) := by
  cases h with
  | name x => exact List.mem_cons_self
  | word kind h => exact List.mem_cons_of_mem _ (List.mem_append_left _ h)
  | sign kind h => exact List.mem_cons_of_mem _ (List.mem_append_right _ h)

theorem visible (h : l.Declared) : l.kind.isTrivia = false := by
  have hkinds : ∀ k ∈ .identifier :: (typeWords ++ declarationSigns), k.isTrivia = false := by
    decide
  exact hkinds _ h.kind_mem

theorem apart_eq (h : l.Declared) : l.apart = [l] := by
  have hkinds : ∀ k ∈ .identifier :: (typeWords ++ declarationSigns),
      k ≠ .shiftRight ∧ k ≠ .shiftRightZero := by decide
  obtain ⟨hshift, hzero⟩ := hkinds l.kind h.kind_mem
  obtain ⟨rfl, -⟩ | ⟨rfl, -⟩ | hl := apart_cases l
  · exact absurd rfl hshift
  · exact absurd rfl hzero
  · exact hl

theorem head?_append (h : l.Declared) (rest : Bytes) : (l.text ++ rest).head? = l.text.head? := by
  have hne : l.text ≠ [] := by
    rcases h.word_or_sign with hword | ⟨kind, hkind, rfl⟩
    · exact hword.text_ne
    · have hsigns : ∀ kind ∈ declarationSigns, (Lexeme.sign kind).text ≠ [] := by decide
      exact hsigns kind hkind
  obtain ⟨b, tail, htext⟩ := List.exists_cons_of_ne_nil hne
  rw [htext]
  rfl

/-- Only three signs go on with a byte that begins a lexeme, and for these it is their own. -/
theorem of_head (h : l.Declared) {c : UInt8} (hc : c ∈ l.text.head?) :
    isDigit c = false ∧ c ∉ ['='.toUInt8, '-'.toUInt8] ∧
      ∀ k ∈ [TokenKind.less, .dot, .greater], c ∈ (Lexeme.sign k).text → l = Lexeme.sign k := by
  rcases h.word_or_sign with hword | ⟨kind, hkind, rfl⟩
  · have hletter := hword.letter c hc
    have hdash : ∀ c ∈ ['='.toUInt8, '-'.toUInt8], isLetter c = false := by decide
    have hsigns : ∀ k ∈ [TokenKind.less, .dot, .greater], ∀ c ∈ (Lexeme.sign k).text,
        isLetter c = false := by decide
    refine ⟨?_, fun hmem => ?_, fun k hk hmem => ?_⟩
    · by_contra hdigit
      rw [not_isLetter_of_isDigit (by simpa using hdigit)] at hletter
      cases hletter
    · rw [hdash c hmem] at hletter
      cases hletter
    · rw [hsigns k hk c hmem] at hletter
      cases hletter
  · have hheads : ∀ kind ∈ declarationSigns, ∀ c ∈ (Lexeme.sign kind).text.head?,
        isDigit c = false ∧ c ∉ ['='.toUInt8, '-'.toUInt8] ∧
          ∀ k ∈ [TokenKind.less, .dot, .greater], c ∈ (Lexeme.sign k).text →
            Lexeme.sign kind = Lexeme.sign k := by decide +kernel
    exact hheads kind hkind c hc

end Declared

/-- The bytes that gaps begin with do not go on with a sign or a word. -/
theorem of_gapStarts {c : UInt8} (h : gapStarts c = true) :
    isDigit c = false ∧ c ∉ ['='.toUInt8, '-'.toUInt8] ∧
      ∀ k ∈ [TokenKind.less, .dot, .greater], c ∉ (Lexeme.sign k).text := by
  have hbytes : ∀ c ∈ [' ', '\t', '\r', '\n', '\x0c', '/'].map Char.toUInt8,
      isDigit c = false ∧ c ∉ ['='.toUInt8, '-'.toUInt8] ∧
        ∀ k ∈ [TokenKind.less, .dot, .greater], c ∉ (Lexeme.sign k).text := by decide +kernel
  refine hbytes c ?_
  simp only [gapStarts, isSpace, List.any_cons, List.any_nil, Bool.or_false, Bool.or_eq_true,
    beq_iff_eq] at h
  simp only [List.map_cons, List.map_nil, List.mem_cons, List.not_mem_nil, or_false]
  tauto

namespace Tidy

variable {l : Lexeme} {row : List Lexeme}

theorem tail (h : Tidy (l :: row)) : Tidy row where
  declared := fun m hm => h.declared m (List.mem_cons_of_mem l hm)
  dot := h.dot.suffix (List.suffix_cons l row)
  less := h.less.suffix (List.suffix_cons l row)

end Tidy

namespace Lays

variable {row : List Lexeme} {source : Bytes} {l : Lexeme}

/-- No digit follows, and no byte with which most signs go on. -/
theorem head_plain (h : Lays row source) (hrow : Tidy row) :
    ∀ c ∈ source.head?, isDigit c = false ∧ c ∉ ['='.toUInt8, '-'.toUInt8] := by
  intro c hc
  rcases h.cases_head with hgap | ⟨l, row', rest, rfl, rfl, -⟩
  · exact ⟨(of_gapStarts (hgap c hc)).1, (of_gapStarts (hgap c hc)).2.1⟩
  · have hl := hrow.declared l List.mem_cons_self
    rw [hl.head?_append] at hc
    exact ⟨(hl.of_head hc).1, (hl.of_head hc).2.1⟩

/-- A byte of an opening bracket, a dot or a closing bracket that follows is that sign. -/
theorem head_sign (h : Lays row source) (hrow : Tidy row) {kind : TokenKind}
    (hkind : kind ∈ [TokenKind.less, .dot, .greater]) {c : UInt8} (hc : c ∈ source.head?)
    (hmem : c ∈ (sign kind).text) :
    ∃ row' rest, row = sign kind :: row' ∧ source = (sign kind).text ++ rest ∧ Lays row' rest := by
  rcases h.cases_head with hgap | ⟨l, row', rest, rfl, rfl, hrest⟩
  · exact absurd hmem ((of_gapStarts (hgap c hc)).2.2 kind hkind)
  · have hl := hrow.declared l List.mem_cons_self
    rw [hl.head?_append] at hc
    obtain rfl := (hl.of_head hc).2.2 kind hkind hmem
    exact ⟨row', rest, rfl, rfl, hrest⟩

theorem sign_readsBefore (h : Lays row source) (hrow : Tidy row) {kind : TokenKind}
    (hkind : kind ∈ TokenKind.signs)
    (hends : ∀ c ∈ source.head?, c ∉ continuations (sign kind).text) :
    (sign kind).ReadsBefore source :=
  sign_readsBefore_of_ends hkind (fun c hc => (h.head_plain hrow c hc).1)
    fun c hc => ends_of_not_mem (hends c hc)

/-- In front of what may follow it, a lexeme is a token of its own. Closing brackets are left out:
they may run into each other. -/
theorem readsBefore (h : Lays row source) (hrow : Tidy (l :: row)) (hl : l ≠ sign .greater)
    (hapart : l.IsWord → ∀ c ∈ source.head?, isWordByte c = false) : l.ReadsBefore source := by
  rcases (hrow.declared l List.mem_cons_self).word_or_sign with hword | ⟨kind, hkind, rfl⟩
  · refine hword.readsBefore fun c hc => ⟨hapart hword c hc, fun hdash => ?_⟩
    exact (h.head_plain hrow.tail c hc).2 (by simp [hdash])
  · have hsigns : ∀ kind ∈ declarationSigns, kind ∈ TokenKind.signs ∧
        ∀ c ∈ continuations (sign kind).text, c ∈ ['='.toUInt8, '-'.toUInt8] ∨
          (kind ∈ [TokenKind.less, .dot, .greater] ∧ c ∈ (sign kind).text) := by decide +kernel
    obtain ⟨hsign, hmore⟩ := hsigns kind hkind
    refine h.sign_readsBefore hrow.tail hsign fun c hc hmem => ?_
    rcases hmore c hmem with hplain | ⟨hthree, hown⟩
    · exact (h.head_plain hrow.tail c hc).2 hplain
    · obtain ⟨row', rest, rfl, -, -⟩ := h.head_sign hrow.tail hthree hc hown
      have hdot := (List.isChain_cons_cons.mp hrow.dot).1
      have hless := (List.isChain_cons_cons.mp hrow.less).1
      simp only [List.mem_cons, List.not_mem_nil, or_false] at hthree
      rcases hthree with rfl | rfl | rfl
      · exact absurd (hless rfl) (by decide)
      · exact absurd (hdot rfl) (by decide)
      · exact hl rfl

/-- Either another closing bracket follows right away, or one or two of them end here. -/
theorem greater_or (h : Lays row source) (hrow : Tidy row) :
    (∃ row' rest, row = sign .greater :: row' ∧ source = (sign .greater).text ++ rest ∧
      Lays row' rest) ∨
    ∀ kind ∈ [TokenKind.greater, .shiftRight], (sign kind).ReadsBefore source := by
  by_cases hnext : ∃ c ∈ source.head?, c ∈ (sign .greater).text
  · obtain ⟨c, hc, hmem⟩ := hnext
    exact .inl (h.head_sign hrow (by decide) hc hmem)
  · refine .inr fun kind hkind => ?_
    have hsigns : ∀ kind ∈ [TokenKind.greater, .shiftRight], kind ∈ TokenKind.signs ∧
        ∀ c ∈ continuations (sign kind).text, c ∈ ['='.toUInt8, '-'.toUInt8] ∨
          c ∈ (sign .greater).text := by decide +kernel
    obtain ⟨hsign, hmore⟩ := hsigns kind hkind
    refine h.sign_readsBefore hrow hsign fun c hc hmem => ?_
    rcases hmore c hmem with hplain | hgreater
    · exact (h.head_plain hrow c hc).2 hplain
    · exact hnext ⟨c, hc, hgreater⟩

/-- Three closing brackets always end. -/
theorem shiftRightZero_readsBefore (h : Lays row source) (hrow : Tidy row) :
    (sign .shiftRightZero).ReadsBefore source := by
  have hmore : ∀ c ∈ continuations (sign .shiftRightZero).text,
      c ∈ ['='.toUInt8, '-'.toUInt8] := by decide
  exact h.sign_readsBefore hrow (by decide) fun c hc hmem =>
    (h.head_plain hrow c hc).2 (hmore c hmem)

/-- The grammar sees the lexemes that were laid out, with closing brackets in one sign where
nothing stands between them. The proof goes over the row; of closing brackets up to three are
taken at once. -/
theorem fuses (h : Lays row source) (hrow : Tidy row) (p : Position) :
    Fuses (Lexeme.row p source) row := by
  induction hn : row.length using Nat.strong_induction_on generalizing row source with
  | _ n ih =>
      subst hn
      cases h with
      | nil hend => exact (row_end hend p).symm ▸ .nil
      | @cons gap rest l row hgap hapart hrest =>
          rw [row_gap hgap _ p p]
          by_cases hl : l = sign .greater
          · subst hl
            have htwo : (sign .shiftRight).text = (sign .greater).text ++ (sign .greater).text := by
              decide
            have hthree : (sign .shiftRightZero).text =
                (sign .shiftRight).text ++ (sign .greater).text := by decide
            obtain ⟨row₂, rest₂, rfl, rfl, hrest₂⟩ | hone := hrest.greater_or hrow.tail
            · rw [← List.append_assoc, ← htwo]
              obtain ⟨row₃, rest₃, rfl, rfl, hrest₃⟩ | hpair := hrest₂.greater_or hrow.tail.tail
              · have hread := hrest₃.shiftRightZero_readsBefore hrow.tail.tail.tail
                rw [← List.append_assoc, ← hthree, row_of_readsBefore hread rfl p p]
                exact (ih _ (show row₃.length < row₃.length + 3 by omega) hrest₃ hrow.tail.tail.tail
                  rfl).cons _
              · rw [row_of_readsBefore (hpair .shiftRight (by decide)) rfl p p]
                exact (ih _ (show row₂.length < row₂.length + 2 by omega) hrest₂ hrow.tail.tail
                  rfl).cons _
            · rw [row_of_readsBefore (hone .greater (by decide)) rfl p p]
              exact (ih row.length (by simp) hrest hrow.tail rfl).cons _
          · have hdeclared := hrow.declared l List.mem_cons_self
            have hread := hrest.readsBefore hrow hl hapart
            have hmore := (ih row.length (by simp) hrest hrow.tail rfl).cons l
            rw [hdeclared.apart_eq] at hmore
            rwa [row_of_readsBefore hread hdeclared.visible p p]

end Lays

/-! ## Every type -/

namespace Tidy

variable {row : List Lexeme} {l : Lexeme}

theorem nil : Tidy [] := ⟨nofun, .nil, .nil⟩

/-- A lexeme behind which anything can stand. -/
theorem cons (h : Tidy row) (hl : l.Declared) (hdot : l.kind ≠ .dot) (hless : l.kind ≠ .less) :
    Tidy (l :: row) where
  declared := List.forall_mem_cons.mpr ⟨hl, h.declared⟩
  dot := h.dot.cons fun _ _ hkind => absurd hkind hdot
  less := h.less.cons fun _ _ hkind => absurd hkind hless

theorem name (h : Tidy row) (x : Expr.Name) : Tidy (⟨.identifier, x⟩ :: row) :=
  h.cons (.name x) nofun nofun

theorem word (h : Tidy row) {kind : TokenKind} (hkind : kind ∈ typeWords) :
    Tidy (sign kind :: row) := by
  have hwords : ∀ k ∈ typeWords, k ≠ .dot ∧ k ≠ .less := by decide
  exact h.cons (.word kind hkind) (hwords kind hkind).1 (hwords kind hkind).2

theorem sign (h : Tidy row) (kind : TokenKind) (hkind : kind ∈ declarationSigns)
    (hdot : kind ≠ .dot) (hless : kind ≠ .less) : Tidy (Lexeme.sign kind :: row) :=
  h.cons (.sign kind hkind) hdot hless

theorem dot_cons (h : Tidy (l :: row)) (hl : l.kind = .identifier) :
    Tidy (Lexeme.sign .dot :: l :: row) where
  declared := List.forall_mem_cons.mpr ⟨.sign .dot (by decide), h.declared⟩
  dot := h.dot.cons_cons fun _ => hl
  less := h.less.cons_cons nofun

theorem less_cons (h : Tidy (l :: row)) (hl : l.kind ∈ TypeArgument.starts) :
    Tidy (Lexeme.sign .less :: l :: row) where
  declared := List.forall_mem_cons.mpr ⟨.sign .less (by decide), h.declared⟩
  dot := h.dot.cons_cons nofun
  less := h.less.cons_cons fun _ => hl

theorem dimensions (h : Tidy row) (dims : Nat) : Tidy (WrittenType.dimensions dims ++ row) := by
  induction dims with
  | zero => exact h
  | succ dims ih =>
      rw [WrittenType.dimensions, List.replicate_succ, List.flatten_cons, List.append_assoc]
      have hclosed := ih.sign .rbracket (by decide) (by decide) (by decide)
      exact hclosed.sign .lbracket (by decide) (by decide) (by decide)

end Tidy

end Lexeme

open Lexeme (Tidy)

mutual

/-- In front of a tidy row a type makes a tidy row. -/
theorem WrittenType.tidy (t : WrittenType) {back : List Lexeme} (h : Tidy back) :
    Tidy (t.lexemes ++ back) := by
  match t with
  | .primitive k dims => exact (h.dimensions dims).word (List.mem_append_left _ k.2)
  | .named n dims =>
      rw [WrittenType.lexemes, List.append_assoc]
      exact n.tidy (h.dimensions dims)

theorem TypeName.tidy (n : TypeName) {back : List Lexeme} (h : Tidy back) :
    Tidy (n.lexemes ++ back) := by
  match n with
  | .last x args => exact (TypeArgument.tidy_listed args h).name x
  | .dotted x args rest =>
      have hrest := rest.tidy h
      obtain ⟨y, row, hrow⟩ := rest.exists_first
      rw [TypeName.lexemes, List.cons_append, List.append_assoc, List.cons_append]
      rw [hrow] at hrest ⊢
      exact (TypeArgument.tidy_listed args (hrest.dot_cons rfl)).name x

theorem TypeArgument.tidy (a : TypeArgument) {back : List Lexeme} (h : Tidy back) :
    Tidy (a.lexemes ++ back) := by
  match a with
  | .exact t => exact t.tidy h
  | .any => exact h.sign .question (by decide) nofun nofun
  | .bounded word t =>
      have hbound := (t.tidy h).word (List.mem_append_right WrittenType.primitives word.2)
      exact hbound.sign .question (by decide) nofun nofun

theorem TypeArgument.tidy_listed (args : List TypeArgument) {back : List Lexeme} (h : Tidy back) :
    Tidy (TypeArgument.listed args ++ back) := by
  match args with
  | [] => exact h
  | a :: rest =>
      have hclosed := h.sign .greater (by decide) nofun nofun
      have hrow := a.tidy (TypeArgument.tidy_more rest hclosed)
      obtain ⟨l, row, ha, hl⟩ := a.exists_first
      rw [TypeArgument.listed, List.cons_append, List.append_assoc, List.append_assoc]
      rw [ha] at hrow ⊢
      exact hrow.less_cons hl

theorem TypeArgument.tidy_more (args : List TypeArgument) {back : List Lexeme} (h : Tidy back) :
    Tidy (TypeArgument.more args ++ back) := by
  match args with
  | [] => exact h
  | a :: rest =>
      rw [TypeArgument.more, List.cons_append, List.append_assoc]
      exact (a.tidy (TypeArgument.tidy_more rest h)).sign .comma (by decide) nofun nofun

end

end DotCompletion
