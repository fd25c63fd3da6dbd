import DotCompletion.Proofs.Grammar.Sketch

/-!
# Expressions

Expressions without types: names, integers, brackets, members, elements, calls and
operators. An expression is printed as a row of lexemes, and has a sketch. Brackets
are part of the expression; `Expr.Bracketed` says that they stand wherever the levels
of the operators ask for them. The operators and their levels are those of the language,
and the tables of the grammar are equal to them.
-/

namespace DotCompletion

open Grammar Skim

namespace Expr

/-- A name of a variable, a member or a method. -/
abbrev Name := {text : Bytes // Lexeme.IsName text}

/-- An integer in decimal. -/
abbrev Decimal := {text : Bytes // Lexeme.IsDecimal text}

/-- A sign of one of the given kinds. -/
abbrev Sign (kinds : List TokenKind) := {kind : TokenKind // kind ∈ kinds}

/-- The operators behind an operand. -/
def steps : List TokenKind := [.increment, .decrement]

/-- The operators in front of an operand. -/
def fronts : List TokenKind := [.plus, .minus, .increment, .decrement, .bang, .tilde]

/-- The operators between two operands. -/
def binaries : List TokenKind :=
  [.orOr, .andAnd, .bar, .caret, .amp, .equal, .notEqual, .less, .greater, .lessEqual,
   .greaterEqual, .shiftLeft, .shiftRight, .shiftRightZero, .plus, .minus, .star, .slash, .percent]

/-- How tightly an operator between two operands binds. -/
def precedence : TokenKind → Nat
  | .orOr => 1
  | .andAnd => 2
  | .bar => 3
  | .caret => 4
  | .amp => 5
  | .equal | .notEqual => 6
  | .less | .greater | .lessEqual | .greaterEqual => 7
  | .shiftLeft | .shiftRight | .shiftRightZero => 8
  | .plus | .minus => 9
  | .star | .slash | .percent => 10
  | _ => 0

/-- The operators of an assignment. -/
def assigns : List TokenKind :=
  [.assign, .plusAssign, .minusAssign, .starAssign, .slashAssign, .percentAssign, .andAssign,
   .orAssign, .xorAssign, .shiftLeftAssign, .shiftRightAssign, .shiftRightZeroAssign]

theorem fronts_eq : fronts = unaryOperators := rfl

theorem binaries_eq : binaries = binarySigns := rfl

theorem precedence_eq : precedence = levelOf := by
  funext kind
  cases kind <;> rfl

theorem assigns_eq : assigns = assignments := rfl

end Expr

open DotCompletion.Expr in
/-- An expression. -/
inductive Expr where
  | name (x : Name)
  | number (n : Decimal)
  | paren (e : Expr)
  | field (e : Expr) (x : Name)
  | index (e i : Expr)
  | call (callee : Expr) (args : List Expr)
  | stepped (e : Expr) (s : Sign steps)
  | unary (s : Sign fronts) (e : Expr)
  | binary (s : Sign binaries) (l r : Expr)
  | ternary (condition yes no : Expr)
  | assign (s : Sign assigns) (target value : Expr)

namespace Expr

open Lexeme (sign)

mutual

/-- The expression as it is printed. -/
def lexemes : Expr → List Lexeme
  | name x => [⟨.identifier, x⟩]
  | number n => [⟨.intLiteral, n⟩]
  | paren e => sign .lparen :: (lexemes e ++ [sign .rparen])
  | field e x => lexemes e ++ [sign .dot, ⟨.identifier, x⟩]
  | index e i => lexemes e ++ sign .lbracket :: (lexemes i ++ [sign .rbracket])
  | call callee args => lexemes callee ++ sign .lparen :: (listed args ++ [sign .rparen])
  | stepped e s => lexemes e ++ [sign s]
  | unary s e => sign s :: lexemes e
  | binary s l r => lexemes l ++ sign s :: lexemes r
  | ternary condition yes no =>
    lexemes condition ++ sign .question :: (lexemes yes ++ sign .colon :: lexemes no)
  | assign s target value => lexemes target ++ sign s :: lexemes value

/-- Expressions with commas between them. -/
def listed : List Expr → List Lexeme
  | [] => []
  | [e] => lexemes e
  | e :: e' :: rest => lexemes e ++ sign .comma :: listed (e' :: rest)

end

mutual

/-- The tree of the expression. -/
def sketch : Expr → Sketch
  | name x =>
    .node .referenceExpr [.node .referenceParameterList [], .leaf .identifier ⟨.identifier, x⟩]
  | number n => .leaf .literal ⟨.intLiteral, n⟩
  | paren e => .node .parenExpr [.token (sign .lparen), sketch e, .token (sign .rparen)]
  | field e x =>
    .node .referenceExpr
      [sketch e, .token (sign .dot), .node .referenceParameterList [],
        .leaf .identifier ⟨.identifier, x⟩]
  | index e i =>
    .node .arrayAccess [sketch e, .token (sign .lbracket), sketch i, .token (sign .rbracket)]
  | call callee args =>
    .node .callExpr
      [sketch callee,
        .node .arguments (.token (sign .lparen) :: (sketches args ++ [.token (sign .rparen)]))]
  | stepped e s => .node .postfixExpr [sketch e, .token (sign s)]
  | unary s e => .node .unaryExpr [.token (sign s), sketch e]
  | binary s l r => .node .binaryExpr [sketch l, .token (sign s), sketch r]
  | ternary condition yes no =>
    .node .ternaryExpr
      [sketch condition, .token (sign .question), sketch yes, .token (sign .colon), sketch no]
  | assign s target value => .node .assignExpr [sketch target, .token (sign s), sketch value]

/-- The trees of expressions with commas between them. -/
def sketches : List Expr → List Sketch
  | [] => []
  | [e] => [sketch e]
  | e :: e' :: rest => sketch e :: .token (sign .comma) :: sketches (e' :: rest)

end

/-- How tightly the outermost part of the expression binds: assignments and conditions
bind loosest, then come the binary operators by their levels, then those in front of an
operand, and what is no operator at all. -/
def level : Expr → Nat
  | assign .. => 0
  | ternary .. => 1
  | binary s _ _ => precedence s + 1
  | unary .. => 12
  | _ => 13

/-- The expression can be called. -/
def isCallee : Expr → Bool
  | name _ | field _ _ => true
  | _ => false

/-- No operand binds looser than its place allows: the left operand of a binary operator
as tightly as the operator, the right one more tightly; the value of an assignment and
the end of a condition may be of their own kind again. -/
inductive Bracketed : Expr → Prop
  | name (x : Name) : Bracketed (.name x)
  | number (n : Decimal) : Bracketed (.number n)
  | paren {e : Expr} (h : Bracketed e) : Bracketed (.paren e)
  | field {e : Expr} (h : Bracketed e) (hlevel : 13 ≤ e.level) (x : Name) :
      Bracketed (.field e x)
  | index {e i : Expr} (h : Bracketed e) (hlevel : 13 ≤ e.level) (hi : Bracketed i) :
      Bracketed (.index e i)
  | call {callee : Expr} {args : List Expr} (h : Bracketed callee)
      (hcallee : callee.isCallee = true) (hargs : ∀ e ∈ args, Bracketed e) :
      Bracketed (.call callee args)
  | stepped {e : Expr} (h : Bracketed e) (hlevel : 13 ≤ e.level) (s : Sign steps) :
      Bracketed (.stepped e s)
  | unary (s : Sign fronts) {e : Expr} (h : Bracketed e) (hlevel : 12 ≤ e.level) :
      Bracketed (.unary s e)
  | binary (s : Sign binaries) {l r : Expr} (hl : Bracketed l) (hr : Bracketed r)
      (hleft : precedence s + 1 ≤ l.level) (hright : precedence s + 1 < r.level) :
      Bracketed (.binary s l r)
  | ternary {condition yes no : Expr} (hcondition : Bracketed condition) (hyes : Bracketed yes)
      (hno : Bracketed no) (hlevel : 1 < condition.level) (hend : 1 ≤ no.level) :
      Bracketed (.ternary condition yes no)
  | assign (s : Sign assigns) {target value : Expr} (htarget : Bracketed target)
      (hvalue : Bracketed value) (hlevel : 0 < target.level) :
      Bracketed (.assign s target value)

theorem precedence_pos_le : ∀ k ∈ binaries, 1 ≤ precedence k ∧ precedence k ≤ 10 := by decide

/-- What an operand begins with if no operator stands in front of it. -/
def operandStarts : List TokenKind := [.identifier, .intLiteral, .lparen]

variable {e : Expr}

theorem Bracketed.exists_first (h : e.Bracketed) :
    ∃ l row, e.lexemes = l :: row ∧
      (l.kind ∈ operandStarts ∨ (l.kind ∈ fronts ∧ e.level < 13)) := by
  induction h with
  | name x => exact ⟨_, _, rfl, .inl (by simp [operandStarts])⟩
  | number n => exact ⟨_, _, rfl, .inl (by simp [operandStarts])⟩
  | paren => exact ⟨_, _, rfl, .inl (by simp [sign, operandStarts])⟩
  | field _ hlevel x ih | stepped _ hlevel s ih =>
      obtain ⟨l, row, hrow, hfirst⟩ := ih
      rw [lexemes, hrow]
      exact ⟨l, _, rfl, .inl (hfirst.resolve_right fun h => by omega)⟩
  | index _ hlevel _ ih _ =>
      obtain ⟨l, row, hrow, hfirst⟩ := ih
      rw [lexemes, hrow]
      exact ⟨l, _, rfl, .inl (hfirst.resolve_right fun h => by omega)⟩
  | @call callee args _ hcallee _ ih _ =>
      obtain ⟨l, row, hrow, hfirst⟩ := ih
      rw [lexemes, hrow]
      have hlevel : callee.level = 13 := by
        cases callee <;> first | rfl | cases hcallee
      exact ⟨l, _, rfl, .inl (hfirst.resolve_right fun h => by omega)⟩
  | unary s => exact ⟨_, _, rfl, .inr ⟨s.2, by simp [level]⟩⟩
  | binary s _ _ _ _ ih _ =>
      obtain ⟨l, row, hrow, hfirst⟩ := ih
      have hlevel := (precedence_pos_le s.1 s.2).2
      rw [lexemes, hrow]
      exact ⟨l, _, rfl, hfirst.imp_right fun h => ⟨h.1, by simp only [level]; omega⟩⟩
  | ternary _ _ _ _ _ ih _ _ | assign s _ _ _ ih _ =>
      obtain ⟨l, row, hrow, hfirst⟩ := ih
      rw [lexemes, hrow]
      exact ⟨l, _, rfl, hfirst.imp_right fun h => ⟨h.1, by simp [level]⟩⟩

end Expr

end DotCompletion
