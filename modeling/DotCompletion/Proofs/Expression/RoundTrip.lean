import DotCompletion.Proofs.Expression.Lookahead
import DotCompletion.Proofs.Grammar.WholeInput

/-!
# Reading undoes printing

An expression that has the brackets it needs is read back from its lexemes
(`Entry.read?_spaced`). What is read for it depends on the kind of the lexeme behind it:
`Stops m` lists the kinds that do not go on with an expression of level `m`.

Suffixes and binary operators are read in loops that go on with the operand at hand. For
these the statement is about what the loop makes of the operand and of all that follows.
-/

namespace DotCompletion

open Grammar Form Lexeme

/-- The kinds that do not go on with an expression read at level `m`. -/
structure Stops (m : Nat) (kind : TokenKind) : Prop where
  suffix : kind ∉ suffixSigns
  test : kind ≠ .kwInstanceof
  operator : kind ∈ binarySigns → levelOf kind + 1 < m
  condition : kind = .question → 1 < m
  assignment : kind ∈ assignments → 0 < m

namespace Stops

variable {m m' : Nat} {kind : TokenKind}

theorem mono (h : Stops m kind) (hle : m ≤ m') : Stops m' kind where
  suffix := h.suffix
  test := h.test
  operator := fun hkind => Nat.lt_of_lt_of_le (h.operator hkind) hle
  condition := fun hkind => Nat.lt_of_lt_of_le (h.condition hkind) hle
  assignment := fun hkind => Nat.lt_of_lt_of_le (h.assignment hkind) hle

/-- The kinds behind a whole expression. -/
def closers : List TokenKind := [.rparen, .rbracket, .comma, .colon, .eof]

theorem of_mem_closers (m : Nat) (h : kind ∈ closers) : Stops m kind := by
  have hkinds : ∀ k ∈ closers, k ∉ suffixSigns ∧ k ≠ .kwInstanceof ∧ k ∉ binarySigns ∧
      k ≠ .question ∧ k ∉ assignments := by decide
  obtain ⟨hsuffix, htest, hoperator, hcondition, hassignment⟩ := hkinds kind h
  exact ⟨hsuffix, htest, (absurd · hoperator), (absurd · hcondition), (absurd · hassignment)⟩

/-- Every binary operator ends an operand. -/
theorem operand (h : Stops m kind) : Stops 12 kind where
  suffix := h.suffix
  test := h.test
  operator := fun hkind => by
    have hlevel := (Expr.precedence_pos_le kind (Expr.binaries_eq ▸ hkind)).2
    rw [Expr.precedence_eq] at hlevel
    omega
  condition := fun _ => by omega
  assignment := fun _ => by omega

theorem of_binary (h : kind ∈ binarySigns) (hlevel : levelOf kind + 1 < m) : Stops m kind := by
  have hkinds : ∀ k ∈ binarySigns, k ∉ suffixSigns ∧ k ≠ .kwInstanceof ∧ k ≠ .question ∧
      k ∉ assignments := by decide
  obtain ⟨hsuffix, htest, hcondition, hassignment⟩ := hkinds kind h
  exact ⟨hsuffix, htest, fun _ => hlevel, (absurd · hcondition), (absurd · hassignment)⟩

theorem of_question (hlevel : 1 < m) : Stops m .question :=
  ⟨by decide, by decide, fun h => absurd h (by decide), fun _ => hlevel,
    fun h => absurd h (by decide)⟩

theorem of_assignment (h : kind ∈ assignments) (hlevel : 0 < m) : Stops m kind := by
  have hkinds : ∀ k ∈ assignments, k ∉ suffixSigns ∧ k ≠ .kwInstanceof ∧ k ∉ binarySigns ∧
      k ≠ .question := by decide
  obtain ⟨hsuffix, htest, hoperator, hcondition⟩ := hkinds kind h
  exact ⟨hsuffix, htest, (absurd · hoperator), (absurd · hcondition), fun _ => hlevel⟩

end Stops

/-! ## Loops -/

namespace Form

variable {frame frame' : List Sketch} {row row' back : List Lexeme} {l : Lexeme} {s : Sketch}

theorem Turns.of_reads_idle {r : Rule}
    (h : ∀ nodes c, c.row = row → r.Reads nodes c nodes c) :
    (Form.rule r).Turns frame row frame row :=
  fun nodes c hnodes hrow => ⟨nodes, c, h nodes c hrow, hnodes, hrow⟩

theorem turns_suffixes_idle (h : kindAt row 0 ∉ suffixSigns) :
    (Form.rule .suffixes).Turns frame row frame row := by
  refine .of_reads_idle fun nodes c hrow => Rule.Reads.suffixes_idle ?_
  rwa [Skim.kindAt_eq_lexeme, ← Cursor.row, hrow]

theorem turns_operators_idle {least : Nat} (htest : kindAt row 0 ≠ .kwInstanceof)
    (hlevel : kindAt row 0 ∈ binarySigns → levelOf (kindAt row 0) < least) :
    (Form.rule (.operators least)).Turns frame row frame row := by
  refine .of_reads_idle fun nodes c hrow => ?_
  have hkind : Skim.kindAt c.rest 0 = kindAt row 0 := by
    rw [Skim.kindAt_eq_lexeme, ← Cursor.row, hrow]
  exact Rule.Reads.operators_idle (by rwa [hkind]) (by rwa [hkind])

/-- An operator that binds tightly enough, with its right operand. -/
theorem turns_operators_step {least : Nat} (hsign : l.kind ∈ binarySigns)
    (hleast : least ≤ levelOf l.kind)
    (hoperand : (Form.rule (.binary (levelOf l.kind + 1))).Turns [] row [s] back)
    (hmore : (Form.rule (.operators least)).Turns [.node .binaryExpr (frame ++ [Sketch.token l, s])]
      back frame' row') :
    (Form.rule (.operators least)).Turns frame (l :: row) frame' row' := by
  have hstep : (binaryStep least (levelOf l.kind)).Turns frame (l :: row) frame' row' := by
    refine .seq (.node .binaryExpr (.seq (.token l) (hoperand.call _))) ?_
    rwa [List.append_assoc]
  intro nodes c hnodes hrow
  have htest : Skim.kindAt c.rest 0 = l.kind := by
    rw [Skim.kindAt_eq_lexeme, ← Cursor.row, hrow, kindAt_cons_zero]
  have hkinds : ∀ k ∈ binarySigns, k ≠ .kwInstanceof := by decide
  obtain ⟨f, hf, hiff⟩ := operators_cases least (hkinds _ hsign)
  obtain ⟨nodes', c', hdoes, hmade⟩ := hstep nodes c hnodes hrow
  refine ⟨nodes', c', Rule.Reads.intro ((hiff _ _ _ _ _ htest).mpr ?_), hmade⟩
  rcases hf with ⟨_, hlevel⟩ | ⟨_, _, rfl⟩
  · exact absurd (hlevel hsign) (Nat.not_lt.mpr hleast)
  · exact hdoes

/-- The part behind a dot. -/
theorem turns_suffixes_field (x : Expr.Name)
    (hmore : (Form.rule .suffixes).Turns
      [.node .referenceExpr (frame ++ [Sketch.token (sign .dot)]
        ++ [Sketch.node .referenceParameterList []]
        ++ [Sketch.leaf .identifier ⟨.identifier, x⟩])] row frame' row') :
    (Form.rule .suffixes).Turns frame (sign .dot :: ⟨.identifier, x⟩ :: row) frame' row' := by
  have hlook : ∀ kinds ∈ [[.kwClass], [.kwThis], [.kwSuper], [.kwNew], [.less]],
      TokenKind.identifier ∉ kinds := by decide
  refine .rule (.yes (.next (List.mem_singleton_self _)) (.seq (.seq (.token _) ?_) hmore))
  refine .no (.next_not (hlook [.kwClass] (by simp))) (.no (.next_not (hlook [.kwThis] (by simp)))
    (.no (.next_not (hlook [.kwSuper] (by simp))) (.no (.next_not (hlook [.kwNew] (by simp)))
      (.node .referenceExpr (.seq (.no (.next_not (hlook [.less] (by simp)))
        (.within (.node .referenceParameterList .done) _)) ?_)))))
  exact .yes (.next (show TokenKind.identifier ∈ TokenKind.identifiers by decide)) (.take _ _)

/-- An index in square brackets. -/
theorem turns_suffixes_index (hfirst : kindAt row 0 ≠ .rbracket)
    (hindex : (Form.rule .expression).Turns [] row [s] (sign .rbracket :: back))
    (hmore : (Form.rule .suffixes).Turns
      [.node .arrayAccess (frame ++ [Sketch.token (sign .lbracket)] ++ [s] ++
        [Sketch.token (sign .rbracket)])]
      back frame' row') :
    (Form.rule .suffixes).Turns frame (sign .lbracket :: row) frame' row' := by
  have hlook : ∀ kinds ∈ [[.dot], [.lparen]], TokenKind.lbracket ∉ kinds := by decide
  refine .rule (.no (.next_not (hlook [.dot] (by simp)))
    (.no (.next_not (hlook [.lparen] (by simp)))
    (.yes (.next (List.mem_singleton_self _)) (.no (.second_not ?_) (.seq (.node .arrayAccess ?_)
      hmore)))))
  · simpa using hfirst
  · exact .seq (.seq (.token _) (hindex.call _)) (.expect rfl)

/-- Arguments behind the name of a method. -/
theorem turns_suffixes_call (hcallee : s.kind = .referenceExpr) {args : List Sketch}
    (hargs : (Form.rule (.list .rparen .expression)).Turns [.token (sign .lparen)] row
      ([Sketch.token (sign .lparen)] ++ args) (sign .rparen :: back))
    (hmore : (Form.rule .suffixes).Turns [.node .callExpr [s, .node .arguments
      ([Sketch.token (sign .lparen)] ++ args ++ [Sketch.token (sign .rparen)])]] back frame' row') :
    (Form.rule .suffixes).Turns [s] (sign .lparen :: row) frame' row' := by
  have harguments : Rule.arguments.form.Turns [] (sign .lparen :: row)
      [.node .arguments ([Sketch.token (sign .lparen)] ++ args ++
        [Sketch.token (sign .rparen)])] back :=
    .node .arguments (.seq (.seq (.expect rfl) hargs) (.expect rfl))
  refine .rule (.no (.next_not (show TokenKind.lparen ∉ [TokenKind.dot] by decide))
    (.yes (.next (List.mem_singleton_self _)) (.yes (.operand [] ?_)
      (.seq (.node .callExpr (.call (.rule harguments) [s])) hmore))))
  simp [hcallee]

/-- An operator behind an operand. -/
theorem turns_suffixes_step (hsign : l.kind ∈ Expr.steps)
    (hmore : (Form.rule .suffixes).Turns [.node .postfixExpr (frame ++ [Sketch.token l])] row
      frame' row') :
    (Form.rule .suffixes).Turns frame (l :: row) frame' row' := by
  have hlook : ∀ k ∈ Expr.steps, ∀ kinds ∈ [[.dot], [.lparen], [.lbracket], [.colonColon]],
      k ∉ kinds := by decide
  have hno := hlook _ hsign
  exact .rule (.no (.next_not (hno [.dot] (by simp))) (.no (.next_not (hno [.lparen] (by simp)))
    (.no (.next_not (hno [.lbracket] (by simp))) (.no (.next_not (hno [.colonColon] (by simp)))
      (.optional hsign (.seq (.node .postfixExpr (.token l)) hmore))))))

/-! ## Operands -/

/-- The looks of a primary that neither a bracket nor a name meets. -/
def primaryWords : List (List TokenKind) :=
  [literals, [.kwThis], [.kwSuper], [.kwNew], [.kwSwitch]]

/-- A token that no word or literal begins with is left to the other primaries. -/
theorem turns_primary_words (hkind : ∀ kinds ∈ primaryWords, l.kind ∉ kinds)
    (h : (Form.choose (.next [.lparen])
        (node .parenExpr (token ++ call .expression ++ expect .rparen))
        (.choose (.next (.kwVoid :: TokenKind.primitives)) primitiveOperand
        (.choose atName (node .referenceExpr (fresh .referenceParameterList .done ++ name))
        (.choose (.next expressionEnds) (.missing .expectedExpression)
          (faultOne .noExpression))))).Turns frame (l :: row) frame' row') :
    (Form.rule .primary).Turns frame (l :: row) frame' row' := by
  refine .rule (.no (.next_not (hkind literals ?_)) (.no (.next_not (hkind [.kwThis] ?_))
    (.no (.next_not (hkind [.kwSuper] ?_)) (.no (.next_not (hkind [.kwNew] ?_))
      (.no (.next_not (hkind [.kwSwitch] ?_)) h)))))
  all_goals simp [primaryWords]

theorem turns_primary_name (x : Expr.Name) :
    (Form.rule .primary).Turns [] (⟨.identifier, x⟩ :: row) [(Expr.name x).sketch] row := by
  have hwords : ∀ kinds ∈ primaryWords, TokenKind.identifier ∉ kinds := by decide
  refine turns_primary_words hwords (.no (.next_not ?_) (.no (.next_not ?_) (.yes (.next ?_)
    (.node .referenceExpr (.seq (.within (.node .referenceParameterList .done) [])
      (.take .identifier _))))))
  · exact show TokenKind.identifier ∉ [TokenKind.lparen] by decide
  · exact show TokenKind.identifier ∉ .kwVoid :: TokenKind.primitives by decide
  · exact show TokenKind.identifier ∈ TokenKind.identifiers by decide

theorem turns_primary_number (n : Expr.Decimal) :
    (Form.rule .primary).Turns [] (⟨.intLiteral, n⟩ :: row) [(Expr.number n).sketch] row :=
  .rule (.yes (.next (show TokenKind.intLiteral ∈ literals by decide)) (.take .literal _))

theorem turns_primary_paren
    (h : (Form.rule .expression).Turns [] row [s] (sign .rparen :: back)) :
    (Form.rule .primary).Turns [] (sign .lparen :: row)
      [.node .parenExpr [.token (sign .lparen), s, .token (sign .rparen)]] back := by
  have hwords : ∀ kinds ∈ primaryWords, TokenKind.lparen ∉ kinds := by decide
  exact turns_primary_words hwords (.yes (.next (List.mem_singleton_self _))
    (.node .parenExpr (.seq (.seq (.token _) (h.call _)) (.expect rfl))))

theorem turns_unary_sign (hsign : l.kind ∈ unaryOperators)
    (h : (Form.rule .unary).Turns [] row [s] back) :
    (Form.rule .unary).Turns [] (l :: row) [.node .unaryExpr [.token l, s]] back :=
  .rule (.yes (.next hsign) (.node .unaryExpr (.seq (.token l) (h.call _))))

/-- Where no cast is ahead an operand is a primary with suffixes. -/
theorem turns_unary_operand (hkind : l.kind ∉ unaryOperators) (hquiet : Quiet (l :: row))
    (h : (Form.rule .primary ++ Form.rule .suffixes).Turns [] (l :: row) frame' row') :
    (Form.rule .unary).Turns [] (l :: row) frame' row' := by
  refine .rule (.no (.next_not hkind) (.no (.both_not_right ?_) h))
  intro nodes tokens _ htokens
  exact (htokens ▸ hquiet).not_cast

/-- Where no lambda is ahead an expression is a condition, perhaps assigned to. -/
theorem turns_expression (hquiet : Quiet row)
    (h : (Form.rule .ternary ++ optional assignments
      (node .assignExpr (token ++ call .expression))).Turns [] row frame' row') :
    (Form.rule .expression).Turns [] row frame' row' := by
  refine .rule (.no ?_ h)
  intro nodes tokens _ htokens
  exact (htokens ▸ hquiet).not_lambda

end Form

/-! ## Every expression -/

namespace Expr

/-- The rule reads the expression back where what follows ends one of level `m`. -/
def ReadsAt (r : Rule) (m : Nat) (e : Expr) : Prop :=
  ∀ back, Quiet (e.lexemes ++ back) → Stops m (kindAt back 0) →
    (Form.rule r).Turns [] (e.lexemes ++ back) [e.sketch] back

/-- Operators go on with the expression as their left operand. -/
def ReadsOperators (e : Expr) : Prop :=
  ∀ least back frame row, least < e.level → Quiet (e.lexemes ++ back) →
    Stops (e.level + 1) (kindAt back 0) →
    (Form.rule (.operators least)).Turns [e.sketch] back frame row →
    (Form.rule (.binary least)).Turns [] (e.lexemes ++ back) frame row

/-- Suffixes go on with the expression. -/
def ReadsSuffixes (e : Expr) : Prop :=
  ∀ back frame row, Quiet (e.lexemes ++ back) →
    (Form.rule .suffixes).Turns [e.sketch] back frame row →
    (Form.rule .primary ++ Form.rule .suffixes).Turns [] (e.lexemes ++ back) frame row

/-- The expression is read back by the rules for its level and for those below. -/
structure ReadsBack (e : Expr) : Prop where
  suffixes : 13 ≤ e.level → e.ReadsSuffixes
  unary : 12 ≤ e.level → e.ReadsAt .unary 12
  operators : 2 ≤ e.level → e.ReadsOperators
  ternary : 1 ≤ e.level → e.ReadsAt .ternary 1
  expression : e.ReadsAt .expression 0

variable {e : Expr}

theorem ReadsOperators.binary (h : e.ReadsOperators) {least : Nat} (hlevel : least < e.level) :
    e.ReadsAt (.binary least) (least + 1) := by
  intro back hquiet hstops
  refine h least back _ _ hlevel hquiet (hstops.mono (by omega)) ?_
  exact turns_operators_idle hstops.test fun hsign => by
    have := hstops.operator hsign
    omega

theorem ReadsAt.expression (h : e.ReadsAt .ternary 1) : e.ReadsAt .expression 0 := by
  intro back hquiet hstops
  refine turns_expression hquiet (.seq (h back hquiet (hstops.mono (by omega))) ?_)
  exact .optional_idle (fun hkind => absurd (hstops.assignment hkind) (by omega)) _ _

theorem ReadsAt.ternary (h : e.ReadsAt (.binary 1) 2) : e.ReadsAt .ternary 1 := by
  intro back hquiet hstops
  refine .rule (.seq (h back hquiet (hstops.mono (by omega))) (.optional_idle ?_ _ _))
  intro hkind
  exact absurd (hstops.condition (List.mem_singleton.mp hkind)) (by omega)

namespace ReadsBack

theorem of_expression (hlevel : e.level = 0) (h : e.ReadsAt .expression 0) : e.ReadsBack where
  suffixes := by omega
  unary := by omega
  operators := by omega
  ternary := by omega
  expression := h

theorem of_ternary (hlevel : e.level = 1) (h : e.ReadsAt .ternary 1) : e.ReadsBack where
  suffixes := by omega
  unary := by omega
  operators := by omega
  ternary := fun _ => h
  expression := h.expression

theorem of_operators (hlevel : 1 < e.level) (hbinary : e.level < 12) (h : e.ReadsOperators) :
    e.ReadsBack where
  suffixes := by omega
  unary := by omega
  operators := fun _ => h
  ternary := fun _ => (h.binary hlevel).ternary
  expression := (h.binary hlevel).ternary.expression

theorem of_unary (hlevel : 12 ≤ e.level) (h : e.ReadsAt .unary 12)
    (hsuffixes : 13 ≤ e.level → e.ReadsSuffixes) : e.ReadsBack := by
  have hoperators : e.ReadsOperators := fun least back frame row _ hquiet hstops hmore =>
    .rule (.seq (h back hquiet hstops.operand) hmore)
  have hternary := (hoperators.binary (show 1 < e.level by omega)).ternary
  exact ⟨hsuffixes, fun _ => h, fun _ => hoperators, fun _ => hternary, hternary.expression⟩

theorem of_suffixes (he : e.Bracketed) (hlevel : e.level = 13) (h : e.ReadsSuffixes) :
    e.ReadsBack := by
  refine of_unary (by omega) (fun back hquiet hstops => ?_) fun _ => h
  have hoperand := h back _ _ hquiet (turns_suffixes_idle hstops.suffix)
  obtain ⟨l, row, hrow, hfirst⟩ := he.exists_first
  have hkinds : ∀ k ∈ operandStarts, k ∉ unaryOperators := by decide
  rw [hrow] at hquiet hoperand ⊢
  refine turns_unary_operand (hkinds _ ?_) hquiet hoperand
  exact hfirst.resolve_right fun h => by omega

end ReadsBack

/-- An argument, in front of what follows it in a list. -/
theorem ReadsBack.turns_argument (h : e.ReadsBack) (he : e.Bracketed) {back row : List Lexeme}
    {frame frame' : List Sketch} (hquiet : Quiet (e.lexemes ++ back))
    (hstops : kindAt back 0 ∈ Stops.closers)
    (hmore : (Form.optional [.comma] (token ++ .rule (.list .rparen .expression))).Turns
      (frame ++ [e.sketch]) back frame' row) :
    (Form.rule (.list .rparen .expression)).Turns frame (e.lexemes ++ back) frame' row := by
  have hoperand := h.expression back hquiet (.of_mem_closers 0 hstops)
  obtain ⟨l, tail, hrow, hfirst⟩ := he.exists_first
  have hkinds : ∀ k ∈ operandStarts ++ fronts,
      k ∉ [TokenKind.rparen, .eof] ∧ k ∉ Cursor.splittable := by decide
  have hkind : l.kind ∈ operandStarts ++ fronts :=
    List.mem_append.mpr (hfirst.imp_right And.left)
  rw [hrow, List.cons_append] at hoperand ⊢
  refine .rule (.no (.next_not (hkinds _ hkind).1)
    (.seq (.ifStuck (hoperand.call frame) (hkinds _ hkind).2 fun heq => ?_) hmore))
  have hlength := congrArg List.length heq
  simp only [List.length_append, List.length_cons] at hlength
  omega

/-- The arguments of a call, in front of the bracket that closes them. -/
theorem turns_listed {args : List Expr} (hargs : ∀ e ∈ args, e.Bracketed)
    (h : ∀ e ∈ args, e.ReadsBack) {row : List Lexeme}
    (hquiet : Quiet (listed args ++ sign .rparen :: row)) (frame : List Sketch) :
    (Form.rule (.list .rparen .expression)).Turns frame (listed args ++ sign .rparen :: row)
      (frame ++ sketches args) (sign .rparen :: row) := by
  induction args generalizing frame with
  | nil =>
      have hclose : TokenKind.rparen ∈ [TokenKind.rparen, .eof] := by decide
      have hdone : (Rule.list .rparen .expression).form.Turns frame (sign .rparen :: row) frame
          (sign .rparen :: row) := .yes (.next hclose) .done
      simpa only [listed, sketches, List.nil_append, List.append_nil] using hdone.rule
  | cons e args ih =>
      have hfirst := h e List.mem_cons_self
      have hbracketed := hargs e List.mem_cons_self
      cases args with
      | nil =>
          refine hfirst.turns_argument hbracketed hquiet (by simp [sign, Stops.closers]) ?_
          exact .optional_idle (show TokenKind.rparen ∉ [TokenKind.comma] by decide) _ _
      | cons e' rest =>
          rw [listed, List.append_assoc, List.cons_append] at hquiet ⊢
          refine hfirst.turns_argument hbracketed hquiet (by simp [sign, Stops.closers]) ?_
          have hmore := ih (fun e he => hargs e (List.mem_cons_of_mem _ he))
            (fun e he => h e (List.mem_cons_of_mem _ he)) hquiet.right.tail
            (frame ++ [e.sketch] ++ [Sketch.token (sign .comma)])
          rw [List.append_assoc, List.append_assoc] at hmore
          exact .optional (List.mem_singleton_self _)
            (.seq (.token _) (by simpa [sketches] using hmore))

theorem level_of_isCallee (h : e.isCallee = true) : e.level = 13 := by
  cases e <;> first | rfl | cases h

theorem kind_of_isCallee (h : e.isCallee = true) : e.sketch.kind = .referenceExpr := by
  cases e <;> first | rfl | cases h

namespace ReadsBack

variable {back : List Lexeme}

theorem paren (h : e.ReadsBack) (he : e.Bracketed) : (Expr.paren e).ReadsBack := by
  refine .of_suffixes he.paren rfl fun back _ _ hquiet hmore => ?_
  rw [lexemes, List.cons_append, List.append_assoc, List.singleton_append] at hquiet ⊢
  have hclose : Stops 0 (kindAt (sign .rparen :: back) 0) :=
    .of_mem_closers 0 (show TokenKind.rparen ∈ Stops.closers by decide)
  exact .seq (turns_primary_paren (h.expression _ hquiet.tail hclose)) hmore

theorem field (h : e.ReadsBack) (he : e.Bracketed) (hlevel : 13 ≤ e.level) (x : Name) :
    (Expr.field e x).ReadsBack := by
  refine .of_suffixes (he.field hlevel x) rfl fun back _ _ hquiet hmore => ?_
  rw [lexemes, List.append_assoc] at hquiet ⊢
  exact h.suffixes hlevel _ _ _ hquiet (turns_suffixes_field x hmore)

theorem index {i : Expr} (h : e.ReadsBack) (hi : i.ReadsBack) (he : e.Bracketed)
    (hlevel : 13 ≤ e.level) (hib : i.Bracketed) : (Expr.index e i).ReadsBack := by
  refine .of_suffixes (he.index hlevel hib) rfl fun back _ _ hquiet hmore => ?_
  rw [lexemes, List.append_assoc, List.cons_append, List.append_assoc,
    List.singleton_append] at hquiet ⊢
  have hclose : Stops 0 (kindAt (sign .rbracket :: back) 0) :=
    .of_mem_closers 0 (show TokenKind.rbracket ∈ Stops.closers by decide)
  have hindex := hi.expression _ hquiet.right.tail hclose
  refine h.suffixes hlevel _ _ _ hquiet (turns_suffixes_index ?_ hindex hmore)
  obtain ⟨l, row, hrow, hfirst⟩ := hib.exists_first
  have hkinds : ∀ k ∈ operandStarts ++ fronts, k ≠ .rbracket := by decide
  rw [hrow]
  exact hkinds _ (List.mem_append.mpr (hfirst.imp_right And.left))

theorem call {args : List Expr} (h : e.ReadsBack) (hargs : ∀ a ∈ args, a.ReadsBack)
    (he : e.Bracketed) (hcallee : e.isCallee = true) (hargsb : ∀ a ∈ args, a.Bracketed) :
    (Expr.call e args).ReadsBack := by
  refine .of_suffixes (he.call hcallee hargsb) rfl fun back _ _ hquiet hmore => ?_
  rw [lexemes, List.append_assoc, List.cons_append, List.append_assoc,
    List.singleton_append] at hquiet ⊢
  have hlisted := turns_listed hargsb hargs hquiet.right.tail [.token (sign .lparen)]
  exact h.suffixes (level_of_isCallee hcallee).ge _ _ _ hquiet
    (turns_suffixes_call (kind_of_isCallee hcallee) hlisted hmore)

theorem stepped (h : e.ReadsBack) (he : e.Bracketed) (hlevel : 13 ≤ e.level) (s : Sign steps) :
    (Expr.stepped e s).ReadsBack := by
  refine .of_suffixes (he.stepped hlevel s) rfl fun back _ _ hquiet hmore => ?_
  rw [lexemes, List.append_assoc] at hquiet ⊢
  exact h.suffixes hlevel _ _ _ hquiet (turns_suffixes_step s.2 hmore)

theorem prefixed (s : Sign fronts) (h : e.ReadsBack) (hlevel : 12 ≤ e.level) :
    (Expr.unary s e).ReadsBack :=
  .of_unary (by simp [level])
    (fun back hquiet hstops =>
      turns_unary_sign (fronts_eq ▸ s.2) (h.unary hlevel back hquiet.tail hstops))
    (by simp [level])

/-- The left operand is read first. The operator is then met by the loop that read it, and
the right operand goes as far as nothing else binds more tightly. -/
theorem binary (s : Sign binaries) {l r : Expr} (hl : l.ReadsBack) (hr : r.ReadsBack)
    (hleft : precedence s + 1 ≤ l.level) (hright : precedence s + 1 < r.level) :
    (Expr.binary s l r).ReadsBack := by
  have hlevel := precedence_pos_le s.1 s.2
  have hmem : s.1 ∈ binarySigns := binaries_eq ▸ s.2
  refine .of_operators (by simp only [level]; omega) (by simp only [level]; omega) ?_
  intro least back frame row hleast hquiet hstops hmore
  rw [lexemes, List.append_assoc, List.cons_append] at hquiet ⊢
  simp only [level] at hleast hstops
  rw [precedence_eq] at hlevel hleft hright hleast hstops
  have hsign : Stops (l.level + 1) s.1 := .of_binary hmem (by omega)
  have hoperand := (hr.operators (by omega)).binary hright back hquiet.right.tail hstops
  exact hl.operators (by omega) least _ _ _ (by omega) hquiet hsign
    (turns_operators_step hmem (show least ≤ levelOf s by omega) hoperand hmore)

theorem ternary_of {condition yes no : Expr} (hcondition : condition.ReadsBack)
    (hyes : yes.ReadsBack) (hno : no.ReadsBack) (hlevel : 1 < condition.level)
    (hend : 1 ≤ no.level) : (Expr.ternary condition yes no).ReadsBack := by
  refine .of_ternary rfl fun back hquiet hstops => ?_
  rw [lexemes, List.append_assoc, List.cons_append, List.append_assoc, List.cons_append]
    at hquiet ⊢
  have hquestion := (hcondition.operators hlevel).binary hlevel _ hquiet (.of_question (by omega))
  have hcolon : Stops 0 (kindAt (sign .colon :: (no.lexemes ++ back)) 0) :=
    .of_mem_closers 0 (show TokenKind.colon ∈ Stops.closers by decide)
  have hmiddle := hyes.expression _ hquiet.right.tail hcolon
  have hlast := hno.ternary hend back hquiet.right.tail.right.tail hstops
  refine .rule (.seq hquestion (.optional (List.mem_singleton_self _) (.node .ternaryExpr
    (.seq (.seq (.seq (.token _) (hmiddle.call _)) (.expect rfl)) (.no ?_ (hlast.call _))))))
  intro nodes tokens _ htokens
  exact (htokens ▸ hquiet.right.tail.right.tail).not_lambda

theorem assign (s : Sign assigns) {target value : Expr} (htarget : target.ReadsBack)
    (hvalue : value.ReadsBack) (hlevel : 0 < target.level) :
    (Expr.assign s target value).ReadsBack := by
  refine .of_expression rfl fun back hquiet hstops => ?_
  rw [lexemes, List.append_assoc, List.cons_append] at hquiet ⊢
  have hfirst := htarget.ternary hlevel _ hquiet (.of_assignment (assigns_eq ▸ s.2) (by omega))
  have hlast := hvalue.expression back hquiet.right.tail hstops
  exact turns_expression hquiet (.seq hfirst (.optional (assigns_eq ▸ s.2)
    (.node .assignExpr (.seq (.token _) (hlast.call _)))))

end ReadsBack

/-- By induction on the expression: each part is read back in front of whatever may follow
it there. -/
theorem Bracketed.readsBack (h : e.Bracketed) : e.ReadsBack := by
  induction h with
  | name x => exact .of_suffixes (.name x) rfl fun _ _ _ _ h => .seq (turns_primary_name x) h
  | number n => exact .of_suffixes (.number n) rfl fun _ _ _ _ h => .seq (turns_primary_number n) h
  | paren h ih => exact ih.paren h
  | field h hlevel x ih => exact ih.field h hlevel x
  | index h hlevel hi ih ihi => exact ih.index ihi h hlevel hi
  | call h hcallee hargs ih ihargs => exact ih.call ihargs h hcallee hargs
  | stepped h hlevel s ih => exact ih.stepped h hlevel s
  | unary s _ hlevel ih => exact ih.prefixed s hlevel
  | binary s _ _ hleft hright ihl ihr => exact ihl.binary s ihr hleft hright
  | ternary _ _ _ hlevel hend ihcondition ihyes ihno =>
      exact ihcondition.ternary_of ihyes ihno hlevel hend
  | assign s _ _ hlevel ihtarget ihvalue => exact ihtarget.assign s ihvalue hlevel

end Expr

theorem Expr.sound_sketches {args : List Expr} (h : ∀ e ∈ args, e.sketch.Sound) :
    ∀ s ∈ Expr.sketches args, s.Sound := by
  induction args with
  | nil => nofun
  | cons e args ih =>
      cases args with
      | nil => simpa [Expr.sketches] using h
      | cons e' rest =>
          have hrest := ih fun e he => h e (List.mem_cons_of_mem _ he)
          simpa [Expr.sketches, h e List.mem_cons_self] using hrest

theorem Expr.Bracketed.sound {e : Expr} (h : e.Bracketed) : e.sketch.Sound := by
  induction h with
  | call _ _ _ ih ihargs =>
      simpa [Expr.sketch, ih, or_imp, forall_and] using sound_sketches ihargs
  | _ => simp [Expr.sketch, *]

/-- Reading undoes printing: an expression with the brackets it needs is read back from its
lexemes with blanks between them, with all of them read and no error. -/
theorem Entry.read?_spaced (e : Expr) (h : e.Bracketed) :
    ∃ c, Entry.expression.read? (spaced e.lexemes) =
        some ([Entry.expression.parse (spaced e.lexemes)], c) ∧ c.rest = [] ∧
      (Entry.expression.parse (spaced e.lexemes)).sketch = e.sketch ∧
      (Entry.expression.parse (spaced e.lexemes)).Every fun n => n.kind ≠ .error := by
  have hquiet := h.quiet
  have hturns := h.readsBack.expression [] (by rwa [List.append_nil])
    (.of_mem_closers 0 (by decide))
  rw [List.append_nil] at hturns
  obtain ⟨nodes, c, hreads, hnodes, hrow⟩ := hturns [] (.ofSource (spaced e.lexemes)) rfl
    (Cursor.row_ofSource_spaced fun l hl => (hquiet.printed l hl).readable)
  obtain ⟨node, rfl, hsketch⟩ := List.map_eq_singleton_iff.mp hnodes
  obtain ⟨frame, c', hread⟩ := Entry.expression.read?_isSome (spaced e.lexemes)
  obtain ⟨rfl, rfl⟩ := Rule.Reads.unique hreads ⟨_, hread⟩
  have hparse : Entry.expression.parse (spaced e.lexemes) = node := by
    rw [Entry.parse, hread]
  rw [hparse]
  exact ⟨_, hread, List.map_eq_nil_iff.mp hrow, hsketch, node.every_of_sound (hsketch ▸ h.sound)⟩

/-- `(a) - -b.f(1, c++) > 0 ? x[i] = 2 : y` -/
def Expr.sample : Expr :=
  let name (text : String) (h : IsName (Bytes.ofString text)) : Expr := .name ⟨_, h⟩
  let number (text : String) (h : IsDecimal (Bytes.ofString text)) : Expr := .number ⟨_, h⟩
  let callee := Expr.field (name "b" (by decide)) ⟨Bytes.ofString "f", by decide⟩
  let args := [number "1" (by decide), .stepped (name "c" (by decide)) ⟨.increment, by decide⟩]
  let difference := Expr.binary ⟨.minus, by decide⟩ (.paren (name "a" (by decide)))
    (.unary ⟨.minus, by decide⟩ (.call callee args))
  .ternary (.binary ⟨.greater, by decide⟩ difference (number "0" (by decide)))
    (.assign ⟨.assign, by decide⟩ (.index (name "x" (by decide)) (name "i" (by decide)))
      (number "2" (by decide)))
    (name "y" (by decide))

theorem Expr.sample_bracketed : Expr.sample.Bracketed := by
  refine .ternary (.binary _ (.binary _ (.paren (.name _)) (.unary _ (.call (.field (.name _) ?_ _)
    rfl ?_) ?_) ?_ ?_) (.number _) ?_ ?_) (.assign _ (.index (.name _) ?_ (.name _)) (.number _) ?_)
    (.name _) ?_ ?_
  any_goals decide
  intro e he
  rcases List.mem_pair.mp he with rfl | rfl
  · exact .number _
  · exact .stepped (.name _) (by decide) _

theorem Entry.read?_spaced_sample :
    Expr.sample.Bracketed ∧
    spaced Expr.sample.lexemes =
      Bytes.ofString "( a ) - - b . f ( 1 , c ++ ) > 0 ? x [ i ] = 2 : y" ∧
    ∃ c, Entry.expression.read? (spaced Expr.sample.lexemes) =
        some ([Entry.expression.parse (spaced Expr.sample.lexemes)], c) ∧ c.rest = [] ∧
      (Entry.expression.parse (spaced Expr.sample.lexemes)).sketch = Expr.sample.sketch := by
  obtain ⟨c, hread, hrest, hsketch, _⟩ := Entry.read?_spaced Expr.sample Expr.sample_bracketed
  exact ⟨Expr.sample_bracketed, by decide, c, hread, hrest, hsketch⟩

end DotCompletion
