import DotCompletion.Proofs.Expression.RoundTrip
import DotCompletion.Proofs.Grammar.Alternatives
import DotCompletion.Proofs.WrittenType.Layout
import DotCompletion.Proofs.WrittenType.Lookahead
import DotCompletion.Proofs.WrittenType.Reading

/-!
# A declaration and a use

A type, a name and a semicolon are read as the declaration of a variable, and the name and a
semicolon behind it as a statement that uses it (`WrittenType.turns_block`). All sorts of statements
that come first in the grammar are ruled out by the first two tokens.
-/

namespace DotCompletion

open Grammar Form Skim

open Lexeme (sign fused Tidy)

namespace WrittenType

/-- A name in front of a semicolon. -/
def statementOf (x : Expr.Name) : List Lexeme := [⟨.identifier, x⟩, sign .semicolon]

/-- The declaration of a variable of the type, and a use of the variable. -/
def program (t : WrittenType) (x : Expr.Name) : List Lexeme :=
  t.lexemes ++ (statementOf x ++ statementOf x)

/-- The tree of the declaration. -/
def declaration (t : WrittenType) (x : Expr.Name) : Sketch :=
  .node .localVarDecl
    [t.sketch, .node .declarator [.leaf .identifier ⟨.identifier, x⟩], .token (sign .semicolon)]

/-- The tree of the use. -/
def use (x : Expr.Name) : Sketch :=
  .node .exprStmt [(Expr.name x).sketch, .token (sign .semicolon)]

/-- The tree of both. -/
def block (t : WrittenType) (x : Expr.Name) : Sketch := .node .block [t.declaration x, use x]

/-! ## What begins like a type -/

/-- No modifier, no annotation and no declaration of a class. -/
theorem not_modifier {first : TokenKind} (h : first ∈ starts) (second : TokenKind) :
    isAnnotationStart first second = false ∧ isModifier first second = false ∧
      isTypeDecl first second = false := by
  have hkinds : ∀ k ∈ starts, k ≠ .atSign ∧ k ∉ plainModifiers ∧ k ≠ .kwDefault ∧ k ≠ .kwSealed ∧
      k ∉ [TokenKind.kwClass, .kwInterface, .kwEnum] ∧ k ≠ .kwRecord := by decide
  obtain ⟨hat, hplain, hdefault, hsealed, hclass, hrecord⟩ := hkinds first h
  refine ⟨?_, ?_, ?_⟩
  · simp [isAnnotationStart, hat]
  · simp [isModifier, hplain, hdefault, hsealed]
  · rw [isTypeDecl, List.contains_eq_mem, decide_eq_false hclass, beq_eq_false_iff_ne.mpr hat,
      beq_eq_false_iff_ne.mpr hrecord]
    rfl

variable {frame : List Sketch} {plain : List Lexeme} {l : Lexeme}

theorem ne_greater_of_starts (hl : l.kind ∈ starts) : l ≠ sign .greater := by
  rintro rfl
  exact absurd hl (by decide)

theorem not_localClass (hl : l.kind ∈ starts) :
    (Look.ahead .localClass).AnswersApart frame (l :: plain) false := by
  refine .of_first (ne_greater_of_starts hl) fun nodes t rest ht => ?_
  rw [← ht] at hl
  have hmodifiers : modifiers anyModifier .between (t :: rest) = t :: rest := by
    apply modifiers_idle
    rintro _ _ ⟨⟩
    obtain ⟨hmark, hmodifier, -⟩ := not_modifier hl (Skim.kindAt rest 0)
    simp [anyModifier, hmark, hmodifier]
  rw [Look.holds, Ahead.holds]
  simp only [hmodifiers]
  rw [show Skim.kindAt (t :: rest) 0 = t.kind from rfl, (not_modifier hl _).2.2, Bool.false_and]

/-- No statement of another sort begins like this. -/
theorem not_otherStatement (hl : l.kind ∈ starts)
    (hcolon : ∀ k ∈ fused (Lexeme.kindAt plain 0), k ∉ [TokenKind.colon]) :
    ∀ look ∈ otherStatements.take 19, look.AnswersApart frame (l :: plain) false := by
  have hkinds : ∀ k ∈ starts, fused k = [k] ∧ (∀ kinds ∈ statementStarts, k ∉ kinds) ∧
      k ∉ [TokenKind.kwSynchronized] ∧ k ∉ [TokenKind.kwYield] ∧ k ∉ [TokenKind.rbrace] ∧
      k ∉ [TokenKind.rparen, .rbracket] := by decide
  obtain ⟨hfused, hstarts, hsynchronized, hyield, hrbrace, hclosers⟩ := hkinds l.kind hl
  have hnot : ∀ kinds : List TokenKind, l.kind ∉ kinds →
      ∀ k ∈ fused (Lexeme.kindAt (l :: plain) 0), k ∉ kinds := by
    intro kinds hkind k hk
    rw [Lexeme.kindAt_cons_zero, hfused, List.mem_singleton] at hk
    rwa [hk]
  intro look hlook
  rw [show otherStatements.take 19 = statementStarts.map .next ++
    [.both (.next [.kwSynchronized]) (.second [.lparen]),
     .both (.next [.kwYield]) (.isNot (.second afterYieldName)), .next [.rbrace],
     .next [.rparen, .rbracket], nameBefore .colon, .ahead .localClass] from rfl] at hlook
  simp only [List.mem_append, List.mem_map, List.mem_cons, List.not_mem_nil, or_false] at hlook
  rcases hlook with ⟨kinds, hmem, rfl⟩ | rfl | rfl | rfl | rfl | rfl | rfl
  · exact .next_not (hnot kinds (hstarts kinds hmem))
  · exact .both_not_next _ (hnot _ hsynchronized)
  · exact .both_not_next _ (hnot _ hyield)
  · exact .next_not (hnot _ hrbrace)
  · exact .next_not (hnot _ hclosers)
  · exact .both_not_second (.second_not (ne_greater_of_starts hl) hcolon)
  · exact not_localClass hl

/-! ## The declaration -/

theorem turns_modifiers (hl : l.kind ∈ starts) :
    (Form.rule .modifiers).TurnsApart frame (l :: plain) frame (l :: plain) := by
  refine .rule (.no (.of_first (ne_greater_of_starts hl) fun nodes t rest ht => ?_) .done)
  rw [← ht] at hl
  obtain ⟨hmark, hmodifier, -⟩ := not_modifier hl (Skim.kindAt rest 0)
  rw [Look.holds, Look.holds, Look.holds]
  exact Bool.or_eq_false_iff.mpr ⟨hmark, hmodifier⟩

/-- One variable without a value. -/
theorem turns_variables (x : Expr.Name) (back : List Lexeme) :
    (Form.rule .variables).Turns frame (statementOf x ++ back)
      (frame ++ [Sketch.node .declarator [.leaf .identifier ⟨.identifier, x⟩]])
      (sign .semicolon :: back) := by
  have hname : TokenKind.identifier ∈ TokenKind.identifiers := by decide
  have hidle : ∀ kinds ∈ [[TokenKind.lbracket], [.assign], [.comma]],
      Lexeme.kindAt (sign .semicolon :: back) 0 ∉ kinds :=
    show ∀ kinds ∈ [[TokenKind.lbracket], [.assign], [.comma]], .semicolon ∉ kinds by decide
  have hdims : ∀ frame, (Form.rule .dims).Turns frame (sign .semicolon :: back) frame
      (sign .semicolon :: back) :=
    fun frame => .rule (.no (.both_not_left (.next_not (hidle _ (by simp)))) .done)
  have hdeclarator : (node .declarator (expectName ++ Form.rule .dims ++
      optional [.assign] (token ++ call .initializer))).Turns [] (statementOf x ++ back)
      [.node .declarator [.leaf .identifier ⟨.identifier, x⟩]] (sign .semicolon :: back) :=
    .node .declarator (.seq (.seq (.yes (.next hname) (.take .identifier _)) (hdims _))
      (.optional_idle (hidle _ (by simp)) _ _))
  exact .rule (.seq (hdeclarator.within frame) (.optional_idle (hidle _ (by simp)) _ _))

theorem turns_localVarDecl (t : WrittenType) (x : Expr.Name) {back : List Lexeme}
    (hback : sign .greater ∉ back) (hfuses : Lexeme.Fuses back back) :
    (Form.rule (.localVarDecl true)).TurnsApart [] (t.lexemes ++ (statementOf x ++ back))
      [t.declaration x] back := by
  obtain ⟨l, row, hrow, hl⟩ := t.exists_first
  have hcloses : Closes (statementOf x ++ back) := List.mem_cons_self
  have htype := (t.turns hcloses).call []
  have hplain : sign .greater ∉ statementOf x ++ back := by
    rw [List.mem_append, not_or]
    exact ⟨by simp [statementOf, sign], hback⟩
  have hvariables : (Form.rule .variables).TurnsApart [t.sketch] (statementOf x ++ back)
      _ (sign .semicolon :: back) := .of_turns (turns_variables x back) hplain (hfuses.cons _)
  have hend : (Form.expect .semicolon).TurnsApart
      ([t.sketch] ++ [Sketch.node .declarator [.leaf .identifier ⟨.identifier, x⟩]])
      (sign .semicolon :: back) _ back :=
    .of_turns (.expect rfl) (fun hmem => hplain (List.mem_cons_of_mem _ hmem)) hfuses
  rw [hrow] at htype ⊢
  exact .rule (.node .localVarDecl (.seq (.seq (.seq (turns_modifiers hl) htype) hvariables) hend))

/-- No label ends behind the first token. -/
theorem not_colon (t : WrittenType) {row : List Lexeme} (hrow : t.lexemes = l :: row)
    (x : Expr.Name) (back : List Lexeme) :
    ∀ k ∈ fused (Lexeme.kindAt (row ++ (statementOf x ++ back)) 0), k ∉ [TokenKind.colon] := by
  have hkinds : ∀ k' ∈ .identifier :: (Lexeme.typeWords ++ Lexeme.declarationSigns),
      ∀ k ∈ fused k', k ∉ [TokenKind.colon] := by decide
  refine hkinds _ ?_
  cases row with
  | nil => exact List.mem_cons_self
  | cons m row =>
      have htidy := t.tidy .nil
      rw [List.append_nil, hrow] at htidy
      exact (htidy.declared m (by simp)).kind_mem

/-- A type and a name in front of a semicolon are a statement. -/
theorem turns_declaration (t : WrittenType) (x : Expr.Name) {back : List Lexeme}
    (hback : sign .greater ∉ back) (hfuses : Lexeme.Fuses back back) :
    (Form.rule .statement).TurnsApart [] (t.lexemes ++ (statementOf x ++ back))
      [t.declaration x] back := by
  have hlook : (Look.ahead .localVariable).AnswersApart [] (t.lexemes ++ (statementOf x ++ back))
      true := t.declares []
  have hlast : (Rule.statement.form.otherwise 19).TurnsApart [] _ _ _ :=
    .yes hlook (t.turns_localVarDecl x hback hfuses)
  obtain ⟨l, row, hrow, hl⟩ := t.exists_first
  have hnone : ∀ look ∈ Rule.statement.form.firstLooks 19,
      look.AnswersApart [] (l :: (row ++ (statementOf x ++ back))) false :=
    not_otherStatement hl (t.not_colon hrow x back)
  rw [hrow] at hlast ⊢
  exact .rule (.otherwise 19 hnone hlast)

/-! ## The use -/

/-- A name is an expression where a semicolon stands behind it. -/
theorem turns_name (x : Expr.Name) (back : List Lexeme) :
    (Form.rule .expression).Turns [] (statementOf x ++ back) [(Expr.name x).sketch]
      (sign .semicolon :: back) := by
  have hidle : ∀ kinds ∈ [[TokenKind.question], assignments, suffixSigns, binarySigns],
      Lexeme.kindAt (sign .semicolon :: back) 0 ∉ kinds :=
    show ∀ kinds ∈ [[TokenKind.question], assignments, suffixSigns, binarySigns],
      .semicolon ∉ kinds by decide
  have hname : ∀ kinds ∈ [unaryOperators, [.lparen]],
      Lexeme.kindAt (statementOf x ++ back) 0 ∉ kinds :=
    show ∀ kinds ∈ [unaryOperators, [.lparen]], .identifier ∉ kinds by decide
  have hunary : (Form.rule .unary).Turns [] (statementOf x ++ back) [(Expr.name x).sketch]
      (sign .semicolon :: back) :=
    .rule (.no (.next_not (hname _ (by simp))) (.no (.both_not_left (.next_not (hname _ (by simp))))
      (.seq (turns_primary_name x) (turns_suffixes_idle (hidle _ (by simp))))))
  have hbinary : (Form.rule (.binary 1)).Turns [] (statementOf x ++ back) [(Expr.name x).sketch]
      (sign .semicolon :: back) :=
    .rule (.seq hunary (turns_operators_idle nofun fun h => absurd h (hidle _ (by simp))))
  have hternary : (Form.rule .ternary).Turns [] (statementOf x ++ back) [(Expr.name x).sketch]
      (sign .semicolon :: back) := .rule (.seq hbinary (.optional_idle (hidle _ (by simp)) _ _))
  refine .rule (.no ?_ (.seq hternary (.optional_idle (hidle _ (by simp)) _ _)))
  rintro nodes tokens - htokens
  obtain ⟨t, rest, rfl, ht, hrest⟩ := List.map_eq_cons_iff.mp htokens
  obtain ⟨u, rest, rfl, hu, -⟩ := List.map_eq_cons_iff.mp hrest
  have htkind : t.kind = .identifier := congrArg Lexeme.kind ht
  have hukind : u.kind = .semicolon := congrArg Lexeme.kind hu
  simp [Look.holds, Ahead.holds, Skim.kindAt, htkind, hukind, TokenKind.isIdentifier,
    TokenKind.identifiers]

/-- A name in front of a semicolon is a statement. -/
theorem turns_use (x : Expr.Name) :
    (Form.rule .statement).Turns [] (statementOf x) [use x] [] := by
  have hexpression := (turns_name x []).call []
  have hexprStmt : (Form.rule .exprStmt).Turns [] (statementOf x) [use x] [] :=
    .rule (.node .exprStmt (.seq hexpression (.expect rfl)))
  intro nodes c hnodes hrow
  obtain rfl := List.map_eq_nil_iff.mp hnodes
  obtain ⟨nodes', c', hreads, hmade⟩ := hexprStmt [] c rfl hrow
  obtain ⟨t, rest, hrest, ht, hmore⟩ := List.map_eq_cons_iff.mp hrow
  obtain ⟨u, rest, rfl, hu, hnil⟩ := List.map_eq_cons_iff.mp hmore
  obtain rfl := List.map_eq_nil_iff.mp hnil
  have hclosing : Closing t u := ⟨congrArg Lexeme.kind ht, congrArg Lexeme.kind hu⟩
  exact ⟨nodes', c', Rule.Reads.statement (hrest ▸ .of_closing hclosing) hreads, hmade⟩

/-! ## Both statements -/

theorem turns_statements_use (x : Expr.Name) (frame : List Sketch) :
    (Form.rule (.statements [])).Turns frame (statementOf x) (frame ++ [use x]) [] := by
  have hmore : TokenKind.identifier ∉ [TokenKind.eof] := by decide
  have hwhole : TokenKind.identifier ∉ Cursor.splittable := by decide
  have hend : ∀ frame, (Form.rule (.statements [])).Turns frame [] frame [] :=
    fun frame => .rule (.yes (.next (List.mem_singleton_self _)) .done)
  exact .rule (.no (.next_not hmore)
    (.seq (.orElse (turns_use x) hwhole (List.cons_ne_nil _ _).symm frame) (hend _)))

/-- The declaration and the use are read as such, with all of their lexemes. -/
theorem turns_block (t : WrittenType) (x : Expr.Name) :
    (Form.rule .statementBlock).TurnsApart [] (t.program x) [t.block x] [] := by
  have hplain : sign .greater ∉ statementOf x := by simp [statementOf, sign]
  have hfuses : Lexeme.Fuses (statementOf x) (statementOf x) := rfl
  have hfirst := t.turns_declaration x hplain hfuses
  have hsecond : (Form.rule (.statements [])).TurnsApart [t.declaration x] (statementOf x)
      [t.declaration x, use x] [] := .of_turns (turns_statements_use x _) hplain .nil
  have hkinds : ∀ k ∈ starts, k ∉ Cursor.splittable ∧ ∀ k' ∈ fused k, k' ∉ [TokenKind.eof] := by
    decide
  obtain ⟨l, row, hrow, hl⟩ := t.exists_first
  rw [program, hrow]
  rw [hrow] at hfirst
  have hmoved : statementOf x ≠ l :: (row ++ (statementOf x ++ statementOf x)) := by
    rw [← List.append_assoc, ← List.cons_append, ne_eq, List.self_eq_append_left]
    exact List.cons_ne_nil _ _
  have hstatements : (Form.rule (.statements [])).TurnsApart []
      (l :: (row ++ (statementOf x ++ statementOf x))) [t.declaration x, use x] [] :=
    .rule (.no (.next_not (hkinds _ hl).2)
      (.seq (.orElse hfirst (hkinds _ hl).1 (ne_greater_of_starts hl) hmoved []) hsecond))
  exact .rule (.node .block hstatements)

end WrittenType

end DotCompletion
