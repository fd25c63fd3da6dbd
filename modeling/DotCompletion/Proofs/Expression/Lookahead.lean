import Mathlib.Data.List.Chain
import DotCompletion.Proofs.Expression.Basic

/-!
# No cast and no lambda

Two questions of the grammar look arbitrarily far ahead: whether a bracket opens a cast,
and whether a lambda begins. In a printed expression both are answered with no. There is
no arrow in it, and what follows a closing bracket is never what a cast is applied to.
-/

namespace DotCompletion

open Grammar Skim

namespace Skim

/-- The name of a type in brackets ends behind a closing bracket. -/
theorem castTypes?_eq_some {place : TypePlace} {tokens rest : List Token}
    (h : castTypes? place tokens = some rest) :
    ∃ front t, tokens = front ++ t :: rest ∧ t.kind = .rparen := by
  induction tokens generalizing place with
  | nil => cases h
  | cons t tokens ih =>
      have hmore : ∀ place, castTypes? place tokens = some rest →
          ∃ front u, t :: tokens = front ++ u :: rest ∧ u.kind = .rparen := by
        intro place h
        obtain ⟨front, u, rfl, hu⟩ := ih h
        exact ⟨t :: front, u, rfl, hu⟩
      rw [castTypes?] at h
      split at h
      next => exact hmore _ h
      next =>
          split at h
          next => exact hmore _ h
          next =>
              split at h
              next hclose => cases h; exact ⟨[], t, rfl, hclose⟩
              next => cases h
      next => cases h

theorem exists_arrow_of_closesBeforeArrow {depth : Nat} {tokens : List Token}
    (h : closesBeforeArrow depth tokens = true) : ∃ t ∈ tokens, t.kind = .arrow := by
  induction tokens generalizing depth with
  | nil => cases h
  | cons t tokens ih =>
      have hmore : ∀ depth, closesBeforeArrow depth tokens = true →
          ∃ u ∈ t :: tokens, u.kind = .arrow := by
        intro depth h
        obtain ⟨u, hu, harrow⟩ := ih h
        exact ⟨u, List.mem_cons_of_mem _ hu, harrow⟩
      unfold closesBeforeArrow at h
      split at h
      next => exact hmore _ h
      next =>
          split at h
          next =>
              split at h
              next =>
                  cases tokens with
                  | nil => cases h
                  | cons u tokens => exact ⟨u, by simp, by simpa [kindAt] using h⟩
              next => exact hmore _ h
          next =>
              split at h
              next => cases h
              next => exact hmore _ h

end Skim

/-- The signs of printed expressions. -/
def Expr.signs : List TokenKind :=
  [.lparen, .rparen, .lbracket, .rbracket, .dot, .comma, .question, .colon] ++ Expr.steps ++
    Expr.fronts ++ Expr.binaries ++ Expr.assigns

namespace Lexeme

/-- The lexemes of printed expressions. -/
inductive Printed : Lexeme → Prop
  | name (x : Expr.Name) : Printed ⟨.identifier, x⟩
  | number (n : Expr.Decimal) : Printed ⟨.intLiteral, n⟩
  | sign (kind : TokenKind) (h : kind ∈ Expr.signs) : Printed (sign kind)

theorem Printed.readable {l : Lexeme} (h : l.Printed) : l.Readable := by
  cases h with
  | name x => exact x.2.readable
  | number n => exact n.2.readable
  | sign _ h =>
      have hsigns : ∀ k ∈ Expr.signs, k ∈ TokenKind.signs := by decide
      exact sign_readable (hsigns _ h)

theorem Printed.kind {l : Lexeme} (h : l.Printed) :
    l.kind ∈ .identifier :: .intLiteral :: Expr.signs := by
  cases h with
  | name | number => simp
  | sign _ h => exact List.mem_cons_of_mem _ (List.mem_cons_of_mem _ h)

/-- The row is one of printed lexemes, and no closing bracket stands in front of what a
cast can be applied to. -/
structure Quiet (row : List Lexeme) : Prop where
  printed : ∀ l ∈ row, l.Printed
  apart : row.IsChain fun l m => l.kind = .rparen → m.kind ∉ castOperands

namespace Quiet

variable {row row' : List Lexeme} {l : Lexeme}

theorem nil : Quiet [] := ⟨nofun, .nil⟩

theorem single (h : l.Printed) : Quiet [l] := ⟨by simpa using h, .singleton _⟩

theorem of_suffix (h : Quiet row) (hsuffix : row' <:+ row) : Quiet row' where
  printed := fun l hl => h.printed l (hsuffix.mem hl)
  apart := h.apart.suffix hsuffix

theorem right (h : Quiet (row ++ row')) : Quiet row' := h.of_suffix (List.suffix_append _ _)

theorem tail (h : Quiet (l :: row)) : Quiet row := h.of_suffix (List.suffix_cons _ _)

theorem append (h : Quiet row) (h' : Quiet row')
    (hapart : ∀ l ∈ row.getLast?, ∀ m ∈ row'.head?, l.kind = .rparen → m.kind ∉ castOperands) :
    Quiet (row ++ row') where
  printed := fun l hl => (List.mem_append.mp hl).elim (h.printed l) (h'.printed l)
  apart := List.isChain_append.mpr ⟨h.apart, h'.apart, hapart⟩

/-- A sign in front of a row. -/
theorem cons (h : Quiet row) (kind : TokenKind) (hsign : kind ∈ Expr.signs)
    (hclose : kind ≠ .rparen) : Quiet (Lexeme.sign kind :: row) := by
  refine (single (.sign kind hsign)).append h ?_
  rintro _ ⟨⟩ _ _ hkind
  exact absurd hkind hclose

/-- A sign behind a row, and what stands behind the sign. -/
theorem join {kind : TokenKind} (h : Quiet row) (h' : Quiet (Lexeme.sign kind :: row'))
    (hsign : kind ∉ castOperands) : Quiet (row ++ Lexeme.sign kind :: row') := by
  refine h.append h' ?_
  rintro _ _ _ ⟨⟩ _
  exact hsign

variable {tokens : List Token}

theorem not_cast (h : Quiet (tokens.map Token.lexeme)) : Ahead.cast.holds tokens = false := by
  have hprinted : ∀ t ∈ tokens, t.kind ∈ .identifier :: .intLiteral :: Expr.signs :=
    fun t ht => (h.printed t.lexeme (List.mem_map_of_mem ht)).kind
  have hprimitive : (Skim.kindAt (tokens.drop 1) 0).isPrimitive = false := by
    have hkinds : ∀ k ∈ .eof :: .identifier :: .intLiteral :: Expr.signs,
        k.isPrimitive = false := by decide
    refine hkinds _ ?_
    cases hdrop : tokens.drop 1 with
    | nil => exact List.mem_cons_self
    | cons t rest =>
        exact List.mem_cons_of_mem _ (hprinted t (List.mem_of_mem_drop (hdrop ▸ List.mem_cons_self)))
  rw [Ahead.holds]
  simp only [hprimitive, Bool.false_eq_true, if_false]
  split
  next rest hcast =>
      obtain ⟨front, t, hdrop, hclose⟩ := castTypes?_eq_some hcast
      have hsuffix : t :: rest <:+ tokens := (List.suffix_append front _).trans
        (hdrop ▸ List.drop_suffix 1 tokens)
      have hbehind := h.of_suffix (hsuffix.map Token.lexeme)
      cases rest with
      | nil => decide
      | cons u rest =>
          have hnot : u.kind ∉ castOperands := (List.isChain_cons_cons.mp hbehind.apart).1 hclose
          exact Bool.eq_false_iff.mpr fun hmem => hnot (List.contains_iff_mem.mp hmem)
  next => rfl

theorem not_lambda (h : Quiet (tokens.map Token.lexeme)) : Ahead.lambda.holds tokens = false := by
  have harrow : ∀ t ∈ tokens, t.kind ≠ .arrow := by
    have hkinds : ∀ k ∈ .identifier :: .intLiteral :: Expr.signs, k ≠ .arrow := by decide
    exact fun t ht => hkinds _ (h.printed t.lexeme (List.mem_map_of_mem ht)).kind
  rw [Ahead.holds, Bool.eq_false_iff]
  intro hlambda
  split at hlambda
  next =>
      match tokens, harrow with
      | [], _ | [_], _ => cases hlambda
      | t :: u :: rest, harrow => exact harrow u (by simp) (by simpa [Skim.kindAt] using hlambda)
  next =>
      rw [Bool.and_eq_true] at hlambda
      obtain ⟨t, ht, hkind⟩ := exists_arrow_of_closesBeforeArrow hlambda.2
      exact harrow t (List.mem_of_mem_drop ht) hkind

end Quiet

end Lexeme

namespace Expr

open Lexeme (Quiet)

variable {e : Expr}

theorem getLast?_of_isCallee (h : e.isCallee = true) :
    ∀ l ∈ e.lexemes.getLast?, l.kind = .identifier := by
  cases e with
  | name x =>
      rintro _ ⟨⟩
      rfl
  | field e x =>
      rw [lexemes, List.getLast?_append]
      rintro _ ⟨⟩
      rfl
  | _ => cases h

theorem quiet_listed {args : List Expr} (h : ∀ e ∈ args, Quiet e.lexemes) :
    Quiet (listed args) := by
  induction args with
  | nil => exact .nil
  | cons e args ih =>
      have he := h e List.mem_cons_self
      cases args with
      | nil => exact he
      | cons e' rest =>
          have hrest := ih fun e he => h e (List.mem_cons_of_mem _ he)
          exact he.join (hrest.cons .comma (by decide) (by decide)) (by decide)

/-- A printed expression has nothing in it that looks like a cast or a lambda. -/
theorem Bracketed.quiet (h : e.Bracketed) : Quiet e.lexemes := by
  have hunary : ∀ k ∈ fronts, k ∈ signs ∧ k ≠ .rparen := by decide
  have hinner : ∀ k ∈ steps ++ binaries ++ assigns,
      k ∈ signs ∧ k ≠ .rparen ∧ k ∉ castOperands := by decide
  have hclosed : ∀ {row} kind, kind ∈ [TokenKind.rparen, .rbracket] → Quiet row →
      Quiet (row ++ [Lexeme.sign kind]) := by
    intro row kind hkind hrow
    have hclose : ∀ k ∈ [TokenKind.rparen, .rbracket], k ∈ signs ∧ k ∉ castOperands := by decide
    exact hrow.join (.single (.sign kind (hclose kind hkind).1)) (hclose kind hkind).2
  induction h with
  | name x => exact .single (.name x)
  | number n => exact .single (.number n)
  | paren _ ih => exact (hclosed .rparen (by decide) ih).cons .lparen (by decide) (by decide)
  | field _ _ x ih =>
      exact ih.join ((Quiet.single (.name x)).cons .dot (by decide) (by decide)) (by decide)
  | index _ _ _ ih ihi =>
      have hbrackets := (hclosed .rbracket (by decide) ihi).cons .lbracket (by decide) (by decide)
      exact ih.join hbrackets (by decide)
  | call _ hcallee _ ih ihargs =>
      have hbrackets := hclosed .rparen (by decide) (quiet_listed ihargs)
      refine ih.append (hbrackets.cons .lparen (by decide) (by decide)) ?_
      intro l hl _ _ hclose
      rw [getLast?_of_isCallee hcallee l hl] at hclose
      cases hclose
  | stepped _ _ s ih =>
      have hs := hinner s (by simp [s.2])
      exact ih.join (.single (.sign s hs.1)) hs.2.2
  | unary s _ _ ih => exact ih.cons s (hunary s s.2).1 (hunary s s.2).2
  | binary s _ _ _ _ ihl ihr =>
      have hs := hinner s (by simp [s.2])
      exact ihl.join (ihr.cons s hs.1 hs.2.1) hs.2.2
  | ternary _ _ _ _ _ ihcondition ihyes ihno =>
      have hend := ihyes.join (ihno.cons .colon (by decide) (by decide)) (by decide)
      exact ihcondition.join (hend.cons .question (by decide) (by decide)) (by decide)
  | assign s _ _ _ ihtarget ihvalue =>
      have hs := hinner s (by simp [s.2])
      exact ihtarget.join (ihvalue.cons s hs.1 hs.2.1) hs.2.2

end Expr

end DotCompletion
