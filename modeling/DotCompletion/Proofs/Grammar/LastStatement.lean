import DotCompletion.Proofs.Grammar.Alternatives
import DotCompletion.Proofs.Grammar.Layout
import DotCompletion.Proofs.Grammar.Retention
import DotCompletion.Proofs.Grammar.WholeInput
import DotCompletion.Proofs.Token.LastWord

/-!
# Sources with a name behind the last operand

A source is an expression that ends in a name and a semicolon. If a dot and another name
are put behind its last name, they make a reference of it, inside the same operations. If
digits and a dot are put in place of its last name, they are a number, inside the same
operations again, and the other name is a statement of its own.
-/

namespace DotCompletion

open Skim Grammar Form

namespace Node

/-- A name behind an operand and a dot. -/
def selection (x : Node) (dot name : Token) : Node :=
  .around .referenceExpr none name.span.start
    [x, .leaf .token dot, .around .referenceParameterList none name.span.start [],
      .leaf .identifier name]

end Node

namespace Rule.Reads

variable {frame frame' nodes : Frame} {c c' between : Cursor} {t y dot name : Token}
  {rest : List Token}

/-- A name, a dot and another name. -/
theorem unary_selection (hrest : c.rest = y :: dot :: name :: rest)
    (hy : y.kind ∈ TokenKind.identifiers) (hdot : dot.kind = .dot)
    (hname : name.kind ∈ TokenKind.identifiers) (hnext : kindAt rest 0 ∉ suffixSigns) :
    Rule.unary.Reads [] c [.selection (.operand y) dot name] c.advance.advance.advance := by
  have hdotRest := Cursor.rest_advance hrest
  have hnameRest := Cursor.rest_advance hdotRest
  have hbehind := Cursor.rest_advance hnameRest
  have hstart : ∀ k ∈ TokenKind.identifiers, k ∉ unaryOperators ∧ k ≠ .lparen ∧ k ≠ .kwClass ∧
      k ≠ .kwThis ∧ k ≠ .kwSuper ∧ k ≠ .kwNew ∧ k ≠ .less := by decide
  obtain ⟨hunary, hparen, -⟩ := hstart _ hy
  obtain ⟨-, -, hclass, hthis, hsuper, hnew, hless⟩ := hstart _ hname
  have hlook : ∀ {kinds frame}, name.kind ∉ kinds →
      (Look.next kinds).holds frame c.advance.advance.rest = false := by
    intro kinds frame hnot
    rw [hnameRest, Look.holds_next, kindAt_cons_zero, List.contains_eq_mem,
      decide_eq_false_iff_not]
    exact hnot
  have hsuffixes : Rule.suffixes.Reads [.operand y] c.advance
      [.selection (.operand y) dot name] c.advance.advance.advance := by
    refine intro (.inl ⟨by simp [Look.holds, hdotRest, kindAt, hdot], _, _, ?_,
      suffixes_idle (by rwa [hbehind])⟩)
    refine ⟨_, _, ⟨rfl, rfl⟩, .inr ⟨hlook (by simpa using hclass), .inr ⟨hlook (by simpa using hthis),
      .inr ⟨hlook (by simpa using hsuper), .inr ⟨hlook (by simpa using hnew), _,
        ⟨_, _, .inr ⟨hlook (by simpa using hless), _, ⟨_, ⟨rfl, rfl⟩, rfl⟩, rfl⟩,
          .inl ⟨?_, rfl, rfl⟩⟩, ?_⟩⟩⟩⟩⟩
    · rw [Look.holds_next, hnameRest]
      exact List.contains_iff_mem.mpr hname
    · rw [Cursor.next_eq hdotRest, Cursor.next_eq hnameRest]
      rfl
  refine intro (.inr ⟨?_, .inr ⟨?_, _, _, primary_operand hrest (List.mem_append_right _ hy),
    hsuffixes⟩⟩)
  · rw [hrest, Look.holds_next, kindAt_cons_zero, List.contains_eq_mem, decide_eq_false_iff_not]
    exact hunary
  · simp [Look.holds, hrest, kindAt, hparen]

/-- An expression in front of its semicolon. -/
theorem exprStmt_closed {e : Node} {semi : Token} (h : Rule.expression.Reads [] c [e] between)
    (hrest : between.rest = semi :: rest) (hsemi : semi.kind = .semicolon) :
    Rule.exprStmt.Reads [] c [.around .exprStmt none c.next.span.start [e, .leaf .token semi]]
      between.advance := by
  refine intro ⟨_, ⟨_, _, ⟨_, h, rfl⟩, .inl ⟨?_, rfl, rfl⟩⟩, ?_⟩
  · simp [Look.holds, hrest, kindAt, hsemi]
  · rw [Cursor.next_eq hrest]
    rfl

/-- An expression without a semicolon behind it. -/
theorem exprStmt_open {e : Node} (h : Rule.expression.Reads [] c [e] between)
    (hnext : kindAt between.rest 0 ≠ .semicolon) :
    Rule.exprStmt.Reads [] c [.around .exprStmt none c.next.span.start
      [e, .missing between.behind ⟨.expected .semicolon, some between.next⟩]] between := by
  refine intro ⟨_, ⟨_, _, ⟨_, h, rfl⟩, .inr ⟨?_, rfl, rfl⟩⟩, rfl⟩
  simpa [Look.holds] using hnext

theorem statements_done (hrest : c.rest = []) :
    (Rule.statements []).Reads frame c frame c :=
  intro (.inl ⟨by rw [hrest]; rfl, rfl, rfl⟩)

theorem statements_cons {used : List Token}
    (hstatement : Rule.statement.Reads [] c nodes between) (hsolid : c.Solid)
    (hused : c.rest = used ++ between.rest) (hne : used ≠ [])
    (hmore : (Rule.statements []).Reads (frame ++ nodes) between frame' c') :
    (Rule.statements []).Reads frame c frame' c' := by
  obtain ⟨t, used, rfl⟩ := List.exists_cons_of_ne_nil hne
  have ht : t.Solid := hsolid t (by simp [hused])
  have hmoved : between.taken ≠ c.taken := by
    intro htaken
    have hleft := hstatement.onward.stayed_left hsolid htaken
    have hlength := List.length_pos_iff.mpr ht.text
    simp only [Cursor.left, hused, List.cons_append, List.map_cons, List.map_append, List.sum_cons,
      List.sum_append] at hleft
    omega
  refine intro (.inr ⟨?_, _, between, ⟨nodes, between, hstatement, .inr ⟨hmoved, rfl, rfl⟩⟩,
    hmore⟩)
  simpa [Look.holds, hused, kindAt] using ht.kind

/-- A row of a single expression statement begins with it. -/
theorem statement_of_single {n : Node} (h : (Rule.statements []).Reads [] c [n] c')
    (hn : n.kind = .exprStmt) (hsolid : c.Solid) :
    ∃ between, Rule.statement.Reads [] c [n] between := by
  rcases h.elim with ⟨_, hnil, _⟩ | ⟨_, _, _, ⟨nodes, between, hstatement, hitem⟩, hmore⟩
  · cases hnil
  · obtain ⟨more, hsplit⟩ := Rule.Reads.exists_append hmore rfl
    rcases hitem with ⟨_, _, ⟨_, _, rfl⟩, rfl⟩ | ⟨hmoved, hnodes, _⟩
    · -- a token that fits nowhere is no statement
      obtain ⟨rfl, _⟩ := List.cons.inj hsplit
      cases hn
    · obtain ⟨v, hv, _⟩ := hstatement.retains.leading rfl hsolid hmoved
      rw [hnodes] at hsplit
      cases nodes with
      | nil => cases hv
      | cons m nodes =>
          obtain ⟨rfl, hnil⟩ := List.cons.inj hsplit
          obtain ⟨rfl, _⟩ := List.append_eq_nil_iff.mp hnil.symm
          exact ⟨between, hstatement⟩

end Rule.Reads

/-! ## Endings -/

section

variable {y dot name semi number : Token}

theorem opens_selection (hy : y.kind = .identifier) (hdot : dot.kind = .dot)
    (h : Closing name semi) : Opens [y, dot, name, semi] where
  first := by
    rw [kindAt_cons_zero, hy]
    decide
  second := by simp [kindAt, hdot]
  colon := by simp [kindAt, hdot]
  name := by
    simp only [declares_cons, hy, hdot, h.name, h.close]
    rfl
  arguments := by
    intro depth
    simp only [declares_cons, hy, hdot, h.name, h.close]
    rfl

theorem endsWith_selection (hy : y.kind = .identifier) (hdot : dot.kind = .dot)
    (h : Closing name semi) :
    EndsWith [y, dot, name, semi] (.selection (.operand y) dot name) [semi] where
  toEnding := (opens_selection hy hdot h).toEnding
  behind := h.endsWith.behind
  reads := by
    intro c hrest
    refine ⟨_, Rule.Reads.unary_selection hrest ?_ hdot ?_ ?_, ?_⟩
    · rw [hy]
      decide
    · rw [h.name]
      decide
    · rw [kindAt_cons_zero, h.close]
      decide
    · exact Cursor.rest_advance (Cursor.rest_advance (Cursor.rest_advance hrest))

theorem opens_number (hnumber : number.kind = .floatLiteral) (h : Closing name semi) :
    Opens [number, name, semi] where
  first := by
    rw [kindAt_cons_zero, hnumber]
    decide
  second := by simp [kindAt, h.name]
  colon := by simp [kindAt, h.name]
  name := by
    simp only [declares_cons, hnumber]
    rfl
  arguments := by
    intro depth
    simp only [declares_cons, hnumber]
    rfl

theorem endsWith_number (hnumber : number.kind = .floatLiteral) (h : Closing name semi) :
    EndsWith [number, name, semi] (.operand number) [name, semi] where
  toEnding := (opens_number hnumber h).toEnding
  behind := by
    rw [kindAt_cons_zero, h.name]
    decide
  reads := by
    intro c hrest
    refine ⟨_, Rule.Reads.unary_operand hrest ?_ ?_, Cursor.rest_advance hrest⟩
    · rw [hnumber]
      decide
    · rw [kindAt_cons_zero, h.name]
      decide

/-- A name in front of a semicolon stands in no operation. -/
theorem Closing.passes (h : Closing name semi) : (Form.rule .expression).Passes [] [] [] [] := by
  have hunary : (Form.rule .unary).Passes [] [] [] [] :=
    ⟨.nil, fun us x rest hus c hrest => hus.reads c hrest⟩
  have hbinary : (Form.rule (.binary 1)).Passes [] [] [] [] :=
    .rule (hunary.seq_idle (operators_idles 1))
  have hternary : (Form.rule .ternary).Passes [] [] [] [] :=
    .rule (hbinary.seq_idle (optional_idles (by decide) _))
  have hlambda : Ahead.lambda.holds ([] ++ [name, semi]) = false := by
    simp [Ahead.holds, kindAt, h.name, h.close]
  exact .rule ((hternary.seq_idle (optional_idles (by decide) _)).of_not_lambda _ hlambda)

end

/-! ## Plain statements -/

/-- The text, a name and a semicolon are a single expression statement. Its expression is
plain, and the last token of the expression is the name behind the text. -/
def EndsPlainly (text name : Bytes) : Prop :=
  ∃ statement e semi t,
    (Entry.statements.parse (text ++ name ++ Bytes.ofString ";")).children = [statement] ∧
    statement.kind = .exprStmt ∧ statement.children = [e, semi] ∧ e.Plain ∧ semi.kind ≠ .error ∧
    e.yield.getLast? = some t ∧ t.kind = .identifier ∧ t.literal = name ∧ t.lo = text.length

/-- The check for `EndsPlainly`. -/
def endsPlainly (text name : Bytes) : Bool :=
  match (Entry.statements.parse (text ++ name ++ Bytes.ofString ";")).children with
  | [⟨.exprStmt, _, _, _, [e, semi]⟩] =>
    decide e.Plain && semi.kind != .error && e.yield.getLast?.any fun t =>
      t.kind == .identifier && t.literal == name && t.lo == text.length
  | _ => false

theorem EndsPlainly.of_check {text name : Bytes} (h : endsPlainly text name = true) :
    EndsPlainly text name := by
  unfold endsPlainly at h
  split at h
  next span token error e semi hparse =>
      simp only [Bool.and_eq_true, decide_eq_true_eq, bne_iff_ne, Option.any_eq_true,
        beq_iff_eq] at h
      obtain ⟨⟨hplain, hsemi⟩, t, hlast, ⟨hkind, hliteral⟩, hlo⟩ := h
      exact ⟨_, e, semi, t, hparse, rfl, rfl, hplain, hsemi, hlast, hkind, hliteral, hlo⟩
  next => cases h

namespace Rule.Reads

variable {c : Cursor} {n e semi : Node}

/-- The expression of a statement that ends in its semicolon. -/
theorem expression_of_exprStmt {c' : Cursor} (h : Rule.exprStmt.Reads [] c [n] c')
    (hchildren : n.children = [e, semi]) (hsemi : semi.kind ≠ .error) :
    ∃ between, Rule.expression.Reads [] c [e] between ∧
      kindAt between.rest 0 = .semicolon := by
  obtain ⟨_, ⟨middle, between, ⟨nodes, hexpression, hmiddle⟩, hexpect⟩, hn⟩ := h.elim
  obtain rfl := List.singleton_inj.mp hn
  obtain rfl : middle = nodes := hmiddle
  rcases hexpect with ⟨hlook, rfl, _⟩ | ⟨_, rfl, _⟩
  · obtain ⟨rfl, _⟩ := List.append_inj' (show middle ++ [_] = [e] ++ [semi] from hchildren) rfl
    exact ⟨between, hexpression, by simpa [Look.holds] using hlook⟩
  · obtain ⟨_, hlast⟩ := List.append_inj' (show middle ++ [_] = [e] ++ [semi] from hchildren) rfl
    rw [← List.singleton_inj.mp hlast] at hsemi
    exact absurd rfl hsemi

end Rule.Reads

theorem Node.mem_significant_of_mem_yield {source : Bytes} {n : Node} {t : Token}
    (hn : n.Every (Node.Laid source)) (ht : t ∈ n.yield)
    (hsign : t.kind ∉ .error :: TokenKind.signs) : t ∈ Token.significant source := by
  exact (hn.part_of_mem_yield ht).mem_significant_of_not_sign hsign

/-- The tokens in front of the last word, and the operations they are read as whatever the
last operand is. -/
structure LeadsTo (text name : Bytes) (before : List Token) (layers : List Layer) : Prop where
  lastWord : Token.LastWord text name before
  passes : (Form.rule .expression).Passes [] (Token.visible before) [] layers
  starts : StartsExpression (Token.visible before ++
    Lexeme.places (Position.origin.advance text) (Lexeme.closed name))

theorem Entry.statements_of_children {source : Bytes} {nodes : List Node}
    (h : (Entry.statements.parse source).children = nodes) :
    ∃ c, (Rule.statements []).Reads [] (Cursor.ofSource source) nodes c := by
  obtain ⟨frame, c, hread⟩ := Entry.statements.read?_isSome source
  obtain ⟨node, rfl⟩ := Entry.read?_eq_singleton hread
  have hreads : Rule.statementBlock.Reads [] (Cursor.ofSource source) [node] c := ⟨_, hread⟩
  obtain ⟨children, hstatements, hnode⟩ := hreads.elim
  obtain rfl := List.singleton_inj.mp hnode
  rw [Entry.parse, hread] at h
  exact ⟨c, h ▸ hstatements⟩

/-- What stands behind the cursor is no token of what was read. -/
theorem Rule.Reads.not_mem_yield {source : Bytes} {r : Rule} {e : Node} {c : Cursor} {t : Token}
    (h : r.Reads [] (Cursor.ofSource source) [e] c) (ht : t ∈ e.yield) : t ∉ c.rest := by
  intro hrest
  obtain ⟨hrests, _⟩ := h.staysLaid _ _ (.nil (Cursor.placed_ofSource source))
  have hbehind := (hrests.tokens e List.mem_cons_self t ht).2
  have hnext := hrests.cursor.behind_le
  have hlt := (hrests.cursor.parts t hrest).lo_lt_hi
  have hlo : c.next.lo ≤ t.lo := by
    cases hc : c.rest with
    | nil =>
        rw [hc] at hrest
        cases hrest
    | cons u rest =>
        have hordered := hrests.cursor.ordered
        have hu := (hrests.cursor.parts u (by simp [hc])).lo_lt_hi
        rw [hc] at hordered hrest
        rw [Cursor.next_eq hc]
        rcases List.mem_cons.mp hrest with rfl | hmem
        · exact Nat.le_refl _
        · have hle := (List.pairwise_cons.mp hordered).1 t hmem
          omega
  omega

theorem EndsPlainly.exists_leadsTo {text name : Bytes} (h : EndsPlainly text name) :
    ∃ before layers, LeadsTo text name before layers := by
  obtain ⟨statement, e, semi, t, hparse, hkind, hchildren, hplain, hsemi, hlast, hname, hliteral,
    hlo⟩ := h
  have hsource : text ++ name ++ Bytes.ofString ";" =
      text ++ (Lexeme.closed name).flatMap Lexeme.text := by simp [Lexeme.closed, Lexeme.sign]; rfl
  rw [hsource] at hparse
  generalize hwhole : text ++ (Lexeme.closed name).flatMap Lexeme.text = source at hparse
  obtain ⟨_, hstatements⟩ := Entry.statements_of_children hparse
  obtain ⟨_, hstatement⟩ := hstatements.statement_of_single hkind (Cursor.ofSource_solid source)
  obtain ⟨hstarts, hexprStmt⟩ := hstatement.startsExpression hkind
  obtain ⟨c, hexpression, hnext⟩ := hexprStmt.expression_of_exprStmt hchildren hsemi
  have ht : t ∈ e.yield := List.mem_of_getLast? hlast
  have hlaid : statement.Every (Node.Laid source) :=
    (Entry.statements.parse_laid source).child (by simp [hparse])
  have he : e.Every (Node.Laid source) := hlaid.child (by simp [hchildren])
  have hmem := Node.mem_significant_of_mem_yield he ht (by rw [hname]; decide)
  rw [← hwhole] at hmem
  obtain ⟨rfl, before, hword⟩ := Token.exists_lastWord hmem hname hlo hliteral
  have hrest : (Cursor.ofSource source).rest = Token.visible before ++
      Lexeme.places (Position.origin.advance text) (Lexeme.closed name) := by
    have hvisible : ∀ l ∈ Lexeme.closed name, l.kind.isTrivia = false := by
      simp [Lexeme.closed, Lexeme.sign, TokenKind.isTrivia]
    rw [← Token.visible_places hvisible, ← Token.visible_append, ← hword.reads, hwhole]
    rfl
  rw [hrest] at hstarts
  have hclosing : Closing (Lexeme.place ⟨.identifier, name⟩ (Position.origin.advance text))
      ((Lexeme.sign .semicolon).place ((Position.origin.advance text).advance name)) := ⟨rfl, rfl⟩
  have hfollow : kindAt c.rest 0 ∈ follow := by
    rw [hnext]
    decide
  rcases hexpression.traces hclosing (.inl ⟨rfl, rfl⟩) _ hrest
    (fun n hn => List.mem_singleton.mp hn ▸ hplain) hfollow with
    ⟨used, ahead, hsplit, hahead, -, hstays⟩ | ⟨layers, hpasses⟩
  · -- the last operand would still be ahead
    rw [hsplit] at hrest
    have hbehind := hclosing.rest_of_stays hexpression hstays hrest
    exact absurd (by simp [hbehind]) (hexpression.not_mem_yield ht)
  · exact ⟨before, layers, hword, hpasses, hstarts⟩

/-! ## The other endings -/

namespace Node

/-- A node around others. -/
def group (kind : NodeKind) (children : List Node) : Node := .around kind none .origin children

theorem around_eq_group (kind : NodeKind) (p : Position) {children : List Node}
    (h : children ≠ []) : around kind none p children = group kind children := by
  obtain ⟨n, rest, rfl⟩ := List.exists_cons_of_ne_nil h
  rfl

end Node

theorem Entry.parse_statements {source : Bytes} {nodes : List Node} {c : Cursor}
    (h : (Rule.statements []).Reads [] (Cursor.ofSource source) nodes c) (hne : nodes ≠ []) :
    Entry.statements.parse source = .group .block nodes := by
  have hblock : Entry.statements.rule.Reads [] (Cursor.ofSource source)
      [.around .block none (Cursor.ofSource source).next.span.start nodes] c :=
    .intro ⟨nodes, h, rfl⟩
  rw [Entry.parse_eq hblock, ← Node.around_eq_group _ _ hne]

section

variable {source : Bytes} {ts : List Token} {y dot name semi number : Token} {layers : List Layer}

/-- Behind the name of the last operand stand a dot and another name. -/
theorem Entry.parse_selection (hsource : Token.significant source = ts ++ [y, dot, name, semi])
    (hy : y.kind = .identifier) (hdot : dot.kind = .dot) (hclosing : Closing name semi)
    (hpasses : (Form.rule .expression).Passes [] ts [] layers)
    (hstarts : StartsExpression (ts ++ [y, dot, name, semi])) :
    Entry.statements.parse source =
      .group .block [.group .exprStmt
        [(Node.selection (.operand y) dot name).wrapped layers, .leaf .token semi]] := by
  obtain ⟨between, hexpression, hrest⟩ :=
    hpasses.reads _ _ _ (endsWith_selection hy hdot hclosing) (.ofSource source) hsource
  have hend := Cursor.rest_advance hrest
  have hused : (Cursor.ofSource source).rest = ts ++ [y, dot, name, semi] ++ between.advance.rest := by
    rw [hend, List.append_nil]
    exact hsource
  rw [← hsource] at hstarts
  have hstatement := Rule.Reads.statement hstarts (hexpression.exprStmt_closed hrest hclosing.close)
  have hstatements : (Rule.statements []).Reads [] (Cursor.ofSource source) _ _ :=
    hstatement.statements_cons (Cursor.ofSource_solid source) hused (by simp)
      (.statements_done hend)
  rw [Entry.parse_statements hstatements (by simp)]
  rfl

/-- A number stands in place of the last operand, and another name behind it. -/
theorem Entry.parse_number (hsource : Token.significant source = ts ++ [number, name, semi])
    (hnumber : number.kind = .floatLiteral) (hclosing : Closing name semi)
    (hpasses : (Form.rule .expression).Passes [] ts [] layers)
    (hstarts : StartsExpression (ts ++ [number, name, semi])) :
    ∃ p d, Entry.statements.parse source =
      .group .block
        [.group .exprStmt [(Node.operand number).wrapped layers, .missing p d],
          .group .exprStmt [.operand name, .leaf .token semi]] := by
  obtain ⟨between, hexpression, hrest⟩ :=
    hpasses.reads _ _ _ (endsWith_number hnumber hclosing) (.ofSource source) hsource
  have hused : (Cursor.ofSource source).rest = ts ++ [number] ++ between.rest := by
    rw [hrest, List.append_assoc]
    exact hsource
  rw [← hsource] at hstarts
  have hnext : kindAt between.rest 0 ≠ .semicolon := by
    rw [hrest, kindAt_cons_zero, hclosing.name]
    exact nofun
  have hfirst := Rule.Reads.statement hstarts (hexpression.exprStmt_open hnext)
  have hsolid := hfirst.onward.solid (Cursor.ofSource_solid source)
  -- the other name is an expression as well
  obtain ⟨behind, hname, hsemi⟩ :=
    hclosing.passes.reads _ _ _ hclosing.endsWith between hrest
  have hend := Cursor.rest_advance hsemi
  have hused' : between.rest = [name, semi] ++ behind.advance.rest := by rw [hend, hrest]; rfl
  have hsecond := Rule.Reads.statement (hrest ▸ StartsExpression.of_closing hclosing)
    (hname.exprStmt_closed hsemi hclosing.close)
  have hstatements : (Rule.statements []).Reads [] (Cursor.ofSource source) _ _ :=
    hfirst.statements_cons (Cursor.ofSource_solid source) hused (by simp)
      (hsecond.statements_cons hsolid hused' (by simp) (.statements_done hend))
  rw [Entry.parse_statements hstatements (by simp)]
  exact ⟨_, _, rfl⟩

end

namespace LeadsTo

open Lexeme Token

variable {text name behind digits : Bytes} {before : List Token} {layers : List Layer}

theorem steady (h : LeadsTo text name before layers) :
    ∀ t ∈ before, t.kind ∈ Scan.steadyKinds := by
  have hkinds : ∀ k, k ∈ plainKinds ∨ k ∈ [TokenKind.whitespace, .comment, .lineComment] →
      k ∈ Scan.steadyKinds := by
    rintro k (hk | hk) <;> revert k <;> decide
  intro t ht
  refine hkinds _ ?_
  by_cases htrivia : t.kind.isTrivia = true
  · exact .inr (List.contains_iff_mem.mp htrivia)
  · exact .inl (h.passes.leads.plain t (List.mem_filter.mpr ⟨ht, by simpa using htrivia⟩))

theorem last_ne_number (h : LeadsTo text name before layers) :
    ∀ t ∈ before.getLast?, t.kind ≠ .intLiteral := by
  have hsigns : TokenKind.intLiteral ∉ plainSigns := by decide
  intro t ht hkind
  obtain ⟨front, rfl⟩ := List.getLast?_eq_some_iff.mp ht
  have hvisible : visible (front ++ [t]) = visible front ++ [t] := by
    rw [visible_append]
    simp [visible, hkind, TokenKind.isTrivia]
  have hsign := h.passes.leads.sign t (by rw [hvisible, List.getLast?_concat]; rfl)
  rw [hkind] at hsign
  exact hsigns hsign

/-- The tokens behind the last word give way to others. -/
theorem significant_of_reads {row : List Lexeme}
    (hread : Token.read .origin (text ++ row.flatMap Lexeme.text) =
      before ++ places (Position.origin.advance text) row)
    (hrow : ∀ l ∈ row, l.kind.isTrivia = false) :
    Token.significant (text ++ row.flatMap Lexeme.text) =
      visible before ++ places (Position.origin.advance text) row := by
  rw [← visible_places hrow, ← visible_append, ← hread]
  rfl

/-- A dot and another name behind the last word. -/
theorem parse_qualified (h : LeadsTo text name before layers) (hbehind : IsName behind) :
    Entry.statements.parse (text ++ (qualified name behind).flatMap Lexeme.text) =
      .group .block [.group .exprStmt
        [(Node.selection (.operand (Lexeme.behind ⟨.identifier, name⟩ text))
            ((sign .dot).behind (text ++ name))
            (Lexeme.behind ⟨.identifier, behind⟩ (text ++ name ++ (sign .dot).text))).wrapped layers,
          .leaf .token ((sign .semicolon).behind
            (text ++ name ++ (sign .dot).text ++ behind))]] := by
  have hsource := significant_of_reads
    (h.lastWord.read_qualified hbehind h.steady h.last_ne_number)
    (by simp [qualified, closed, sign, TokenKind.isTrivia])
  simp only [qualified, closed, places_behind] at hsource
  have hclosing : Closing (Lexeme.behind ⟨.identifier, behind⟩ (text ++ name ++ (sign .dot).text))
      ((sign .semicolon).behind (text ++ name ++ (sign .dot).text ++ behind)) := ⟨rfl, rfl⟩
  exact Entry.parse_selection hsource rfl rfl hclosing h.passes
    (.of_ending h.starts ⟨rfl, rfl⟩ h.passes.leads (opens_selection rfl rfl hclosing))

/-- A number that ends in a dot in place of the last word, and another name behind it. -/
theorem parse_broken (h : LeadsTo text name before layers) (hne : digits ≠ [])
    (hdigits : ∀ d ∈ digits, Scan.isDigit d = true) (hbehind : IsName behind)
    (hfirst : ∀ z ∈ behind.head?, z ≠ '_'.toUInt8 ∧ ∀ c ∈ Lexeme.fractionMarks, z ≠ c.toUInt8) :
    ∃ p d, Entry.statements.parse (text ++ (broken digits behind).flatMap Lexeme.text) =
      .group .block
        [.group .exprStmt
          [(Node.operand (Lexeme.behind ⟨.floatLiteral, digits ++ ['.'.toUInt8]⟩ text)).wrapped layers,
            .missing p d],
          .group .exprStmt
            [.operand (Lexeme.behind ⟨.identifier, behind⟩ (text ++ (digits ++ ['.'.toUInt8]))),
              .leaf .token ((sign .semicolon).behind
                (text ++ (digits ++ ['.'.toUInt8]) ++ behind))]] := by
  have hsource := significant_of_reads
    (h.lastWord.read_broken hne hdigits hbehind hfirst h.steady h.last_ne_number)
    (by simp [broken, closed, sign, TokenKind.isTrivia])
  simp only [broken, closed, places_behind] at hsource
  have hclosing : Closing
      (Lexeme.behind ⟨.identifier, behind⟩ (text ++ (digits ++ ['.'.toUInt8])))
      ((sign .semicolon).behind (text ++ (digits ++ ['.'.toUInt8]) ++ behind)) := ⟨rfl, rfl⟩
  exact Entry.parse_number hsource rfl hclosing h.passes
    (.of_ending h.starts ⟨rfl, rfl⟩ h.passes.leads (opens_number rfl hclosing))

end LeadsTo

end DotCompletion
