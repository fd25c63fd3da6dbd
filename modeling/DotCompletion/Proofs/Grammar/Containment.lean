import DotCompletion.Proofs.Grammar.Around
import DotCompletion.Proofs.Grammar.Losses

/-!
# Broken code stays in its method

A class with two methods is read with both of them whatever stands in the body of the first, as
long as it has no braces and its nodes take none. The tree has no more closing braces than the
source, so that the class cannot be read like this if a node of the body took one
(`Entry.parse_inMethod_iff`).
-/

namespace DotCompletion

open Form Lexeme

/-! ## Rows of statements -/

namespace Rule.Reads

variable {closers : List TokenKind} {frame frame' : Frame} {c c' : Cursor}

/-- A row of statements ends in front of what closes it. -/
theorem statements_stops (h : (statements closers).Reads frame c frame' c') :
    Skim.kindAt c'.rest 0 ∈ TokenKind.eof :: closers := by
  refine h.induct (fun r _ _ _ c' => ∀ closers, r = .statements closers →
    Skim.kindAt c'.rest 0 ∈ TokenKind.eof :: closers) ?_ closers rfl
  rintro r frame c frame' c' hform closers rfl
  rcases hform with ⟨hlook, _, rfl⟩ | ⟨_, _, _, _, hmore⟩
  · exact List.contains_iff_mem.mp hlook
  · exact hmore closers rfl

/-- A row of statements does not look at what is in front of it. -/
theorem statements_behind (h : (statements closers).Reads frame c frame' c') :
    ∃ more, frame' = frame ++ more ∧
      ∀ front : Frame, (statements closers).Reads front c (front ++ more) c' := by
  refine h.induct_reads (fun r frame c frame' c' => ∀ closers, r = .statements closers →
    ∃ more, frame' = frame ++ more ∧
      ∀ front : Frame, r.Reads front c (front ++ more) c') ?_ closers rfl
  rintro r frame c frame' c' hform closers rfl
  rcases hform with ⟨hlook, rfl, rfl⟩ | ⟨hlook, _, between, ⟨nodes, first, hfirst, hitem⟩, hmore⟩
  · exact ⟨[], (List.append_nil _).symm, fun front => intro (.inl ⟨hlook, List.append_nil _, rfl⟩)⟩
  · obtain ⟨more, rfl, hmore'⟩ := hmore.2 closers rfl
    have hfirst' : Form.Does Reads (.rule .statement) [] c nodes first := hfirst.1
    rcases hitem with ⟨hstuck, fault, hfault, rfl⟩ | ⟨hmoved, rfl, rfl⟩
    · refine ⟨fault ++ more, List.append_assoc _ _ _, fun front => intro (.inr ⟨hlook, front ++ fault,
        between, ⟨nodes, first, hfirst', .inl ⟨hstuck, fault, ?_, rfl⟩⟩, ?_⟩)⟩
      · exact hfault.mono fun _ _ _ _ _ => And.left
      · rw [← List.append_assoc]
        exact hmore' _
    · refine ⟨nodes ++ more, List.append_assoc _ _ _, fun front => intro (.inr ⟨hlook, front ++ nodes,
        between, ⟨nodes, between, hfirst', .inr ⟨hmoved, rfl, rfl⟩⟩, ?_⟩)⟩
      rw [← List.append_assoc]
      exact hmore' _

end Rule.Reads

namespace Form

variable {word : Prop} {frame : List Sketch} {inner rest : List Lexeme}

/-- A row of statements without braces in front of a closing one: it ends there, or a node takes
the brace that it did not open. -/
theorem turnsAround_statements
    (hinner : ∀ l ∈ inner, l.kind ≠ .lbrace ∧ l.kind ≠ .rbrace ∧
      (l.kind ∈ TokenKind.overrunWords → word)) :
    (Form.rule (.statements [.rbrace])).TurnsAround word (fun _ => True) frame
      (inner ++ sign .rbrace :: rest) (fun body => frame ++ body) (sign .rbrace :: rest) := by
  rintro nodes c rfl hrow hsolid
  obtain ⟨us, fence, hrest, rfl, hfence⟩ := List.map_eq_append_iff.mp hrow
  have hin : c.Inside fence word := by
    refine ⟨hsolid, ?_, us, hrest, fun t ht => hinner _ (List.mem_map_of_mem ht)⟩
    rw [Skim.kindAt_eq_lexeme, hfence]
    rfl
  obtain ⟨frame', c', hrun⟩ := Rule.run_ends (r := .statements [.rbrace]) nodes hsolid
    (Nat.lt_succ_self _)
  obtain ⟨more, rfl, hreads⟩ := Rule.Reads.statements_behind ⟨_, hrun⟩
  refine ⟨nodes ++ more, c', hreads nodes, ?_⟩
  have hreads₀ : (Rule.statements [.rbrace]).Reads [] c ([] ++ more) c' := hreads []
  have hkept := hreads₀.contained.2 (.blind false) rfl (Outlook.holds_blind nofun _) hin rfl
  cases hkept with
  | overrun hword _ htaken =>
      exact .inl ⟨hword, fun htidy => htaken.elim (· htidy.right) (by simp [Rule.overruns])⟩
  | inside hin' _ _ =>
      refine .inr ⟨more.map Node.sketch, trivial, List.map_append, ?_⟩
      have hstops := hreads₀.statements_stops
      have hend : Skim.kindAt c'.rest 0 ≠ .eof := by
        rw [Cursor.kindAt_rest hin'.rest_ne_nil]
        exact (hin'.solid.next hin'.rest_ne_nil).kind
      rw [Cursor.row, hin'.rest_eq_of_rbrace (by simpa [hend] using hstops), hfence]

end Form

/-! ## The braces of a tree -/

namespace Sketch

mutual

/-- The number of closing braces in a tree. -/
def closers : Sketch → Nat
  | ⟨_, lexeme, children⟩ =>
    (if lexeme.map Lexeme.kind = some .rbrace then 1 else 0) + closersAll children

/-- The number of closing braces in a row of trees. -/
def closersAll : List Sketch → Nat
  | [] => 0
  | s :: rest => closers s + closersAll rest

end

theorem closers_eq (s : Sketch) : s.closers =
    (if s.lexeme.map Lexeme.kind = some .rbrace then 1 else 0) + closersAll s.children := by
  cases s
  rfl

@[simp] theorem closers_leaf (kind : NodeKind) (l : Lexeme) :
    (leaf kind l).closers = if l.kind = .rbrace then 1 else 0 := by
  simp [closers_eq, leaf, closersAll]

@[simp] theorem closers_node (kind : NodeKind) (row : List Sketch) :
    (node kind row).closers = closersAll row := by
  simp [closers_eq, node]

@[simp] theorem closersAll_append (front back : List Sketch) :
    closersAll (front ++ back) = closersAll front + closersAll back := by
  induction front with
  | nil => simp [closersAll]
  | cons s front ih => rw [List.cons_append, closersAll, closersAll, ih, Nat.add_assoc]

end Sketch

/-- The closing braces of a tree are those among its tokens. -/
theorem Node.closers_sketch (n : Node) :
    n.sketch.closers = n.yield.countP fun t => t.kind = .rbrace := by
  induction n using Node.induct with
  | step n ih =>
      have hall : ∀ row : List Node, (∀ m ∈ row, m.sketch.closers =
          m.yield.countP fun t => t.kind = .rbrace) → Sketch.closersAll (row.map Node.sketch) =
            (Node.yieldAll row).countP fun t => t.kind = .rbrace := by
        intro row hrow
        induction row with
        | nil => rfl
        | cons m row ihrow =>
            rw [List.map_cons, Sketch.closersAll, hrow m List.mem_cons_self,
              ihrow fun m hm => hrow m (List.mem_cons_of_mem _ hm), Node.yieldAll_cons,
              List.countP_append]
      rw [Node.sketch_eq, Sketch.closers, hall _ ih, Node.yield_eq, List.countP_append]
      congr 1
      cases n.token with
      | none => rfl
      | some t =>
          -- the end of the input may be in a tree, but is none of its tokens
          by_cases heof : t.kind = .eof
          · simp [Option.filter, heof, Token.lexeme]
          · by_cases hbrace : t.kind = .rbrace <;> simp [Option.filter, heof, hbrace, Token.lexeme]

/-- Cutting signs makes no closing brace. -/
theorem Token.Cut.countP_rbrace {row row' : List Token} (h : Cut row row')
    (hsolid : ∀ t ∈ row, t.Solid) :
    (row'.countP fun t => t.kind = .rbrace) = row.countP fun t => t.kind = .rbrace := by
  induction h with
  | whole => rfl
  | @cut front back t hcutRow hcut ih =>
      have ht : t.Solid := (hcutRow.literals hsolid).1 t (by simp)
      have hwhole : t.kind ≠ .rbrace := by
        intro hkind
        rw [hkind] at hcut
        exact absurd hcut (by decide)
      have hpiece := (Cursor.kind_behindAngle hcut ht).2.1
      rw [← ih]
      simp [Cursor.angleOf, hwhole, hpiece]

namespace Sketch

/-- The brace that the node itself is made of. -/
def brace? (s : Sketch) : Option TokenKind :=
  (s.lexeme.map Lexeme.kind).filter [TokenKind.lbrace, .rbrace].contains

/-- The node takes a closing brace that it did not open, or is a name made of one. -/
def Overruns (s : Sketch) : Prop :=
  (s.kind = .identifier ∧ s.brace? = some .rbrace) ∨
    (s.kind ∈ NodeKind.mayOverrun ∧ s.children.findSome? brace? = some .rbrace)

theorem closers_pos {s : Sketch} (h : s.brace? = some .rbrace) : 0 < s.closers := by
  have hlexeme := (Option.filter_eq_some_iff.mp h).1
  rw [closers_eq, if_pos hlexeme]
  omega

theorem closersAll_eq_zero {row : List Sketch} : closersAll row = 0 ↔ ∀ s ∈ row, s.closers = 0 := by
  induction row with
  | nil => simp [closersAll]
  | cons s row ih => simp [closersAll, ih]

theorem not_overruns_of_closers {s : Sketch} (h : s.closers = 0) : ¬s.Overruns := by
  rintro (⟨_, hbrace⟩ | ⟨_, hbrace⟩)
  · have hpos := closers_pos hbrace
    omega
  · obtain ⟨child, hchild, hbrace⟩ := List.exists_of_findSome?_eq_some hbrace
    rw [closers_eq] at h
    have hzero := closersAll_eq_zero.mp (Nat.add_eq_zero_iff.mp h).2 child hchild
    have hpos := closers_pos hbrace
    omega

end Sketch

theorem Node.overruns_sketch (n : Node) : n.sketch.Overruns ↔ n.Overruns := by
  have hbrace : ∀ m : Node, m.sketch.brace? = m.brace? := by
    intro m
    rw [Sketch.brace?, Node.brace?, Node.sketch_eq, Option.map_map]
    rfl
  have hfirst : n.sketch.children.findSome? Sketch.brace? = Frame.firstBrace n.children := by
    rw [Node.sketch_eq, List.findSome?_map, Frame.firstBrace]
    exact congrArg (List.findSome? · _) (funext hbrace)
  rw [Sketch.Overruns, Node.Overruns, hbrace, hfirst, Node.sketch_eq]

namespace Sketch

/-- No tree with this sketch takes a brace that it did not open. -/
def Tidy (s : Sketch) : Prop := ∀ n : Node, n.sketch = s → n.Every fun m => ¬m.Overruns

namespace Tidy

variable {s : Sketch} {row : List Sketch}

theorem intro (h : ¬s.Overruns) (hchildren : ∀ child ∈ s.children, child.Tidy) : s.Tidy := by
  rintro n rfl
  refine .intro (fun hover => h (n.overruns_sketch.mpr hover)) fun m hm => ?_
  refine hchildren m.sketch ?_ m rfl
  rw [Node.sketch_eq]
  exact List.mem_map_of_mem hm

theorem leaf {kind : NodeKind} {l : Lexeme} (h : kind = .identifier → l.kind ≠ .rbrace) :
    (Sketch.leaf kind l).Tidy := by
  refine .intro ?_ nofun
  rintro (⟨hkind, hbrace⟩ | ⟨_, hbrace⟩)
  · obtain ⟨hlexeme, _⟩ := Option.filter_eq_some_iff.mp hbrace
    exact h hkind (Option.some.inj hlexeme)
  · cases hbrace

theorem node {kind : NodeKind} (hkind : kind ∉ NodeKind.mayOverrun) (hrow : ∀ s ∈ row, s.Tidy) :
    (Sketch.node kind row).Tidy := by
  refine .intro ?_ hrow
  rintro (⟨_, hbrace⟩ | ⟨hmem, _⟩)
  · cases hbrace
  · exact hkind hmem

theorem block (hrow : ∀ s ∈ row, s.Tidy) :
    (Sketch.node .block (.token (sign .lbrace) :: row)).Tidy := by
  refine .intro ?_ (List.forall_mem_cons.mpr ⟨.leaf nofun, hrow⟩)
  rintro (⟨_, hbrace⟩ | ⟨_, hbrace⟩) <;> cases hbrace

theorem of_closers (h : s.closers = 0) : s.Tidy := by
  rintro n rfl
  induction n using Node.induct with
  | step n ih =>
      refine .intro (fun hover => not_overruns_of_closers h (n.overruns_sketch.mpr hover))
        fun m hm => ih m hm ?_
      rw [Node.sketch_eq, closers_eq] at h
      exact closersAll_eq_zero.mp (Nat.add_eq_zero_iff.mp h).2 _ (List.mem_map_of_mem hm)

theorem voidMethod {name : Lexeme} (hname : name.kind ≠ .rbrace) (hrow : ∀ s ∈ row, s.Tidy) :
    (Sketch.voidMethod name row).Tidy := by
  refine .node (by decide) ?_
  simp only [List.mem_cons, List.not_mem_nil, or_false, forall_eq_or_imp, forall_eq]
  refine ⟨.node (by decide) ?_, .leaf fun _ => hname, .node (by decide) ?_, .block ?_⟩
  · simpa using .leaf nofun
  · simpa using ⟨.leaf nofun, .leaf nofun⟩
  · simpa [or_imp, forall_and] using ⟨hrow, .leaf nofun⟩

theorem classFile {name : Lexeme} (hname : name.kind ≠ .rbrace) (hrow : ∀ s ∈ row, s.Tidy) :
    (Sketch.classFile name row).Tidy := by
  refine .node (by decide) ?_
  simp only [List.mem_singleton, forall_eq]
  refine .node (by decide) ?_
  simp only [List.mem_cons, List.not_mem_nil, or_false, forall_eq_or_imp, forall_eq]
  refine ⟨.leaf nofun, .leaf fun _ => hname, .node (by decide) ?_⟩
  simpa [or_imp, forall_and] using ⟨.leaf nofun, hrow, .leaf nofun⟩

end Tidy

end Sketch

/-! ## Broken code in a method -/

namespace Bytes

/-- A class with two methods. The bytes are between the braces of the first. -/
def inMethod (s : Bytes) : Bytes :=
  ofString "class A \x7b void m() \x7b" ++ s ++ ofString "\x7d void n() \x7b\x7d \x7d"

/-- The bytes are cut into the same tokens alone and in the method. -/
def ReadsAlone (s : Bytes) : Prop :=
  (Token.significant s.inMethod).map Token.lexeme =
    (Token.significant (ofString "class A \x7b void m() \x7b")).map Token.lexeme ++
      (Token.significant s).map Token.lexeme ++
      (Token.significant (ofString "\x7d void n() \x7b\x7d \x7d")).map Token.lexeme

instance (s : Bytes) : Decidable s.ReadsAlone := by
  unfold ReadsAlone
  infer_instance

/-- There is no brace among the tokens. -/
def Braceless (s : Bytes) : Prop :=
  ∀ t ∈ Token.significant s, t.kind ≠ .lbrace ∧ t.kind ≠ .rbrace

instance (s : Bytes) : Decidable s.Braceless := by
  unfold Braceless
  infer_instance

end Bytes

namespace Lexeme

/-- The tokens of the class, those of the first method's body given. -/
def inMethod (inner : List Lexeme) : List Lexeme :=
  classHead ⟨.identifier, Bytes.ofString "A"⟩
    (voidMethod ⟨.identifier, Bytes.ofString "m"⟩ inner
      (voidMethod ⟨.identifier, Bytes.ofString "n"⟩ [] [sign .rbrace]))

end Lexeme

namespace Sketch

/-- The tree of the class, the statements of the first method given. -/
def inMethod (body : List Sketch) : Sketch :=
  classFile ⟨.identifier, Bytes.ofString "A"⟩
    [voidMethod ⟨.identifier, Bytes.ofString "m"⟩ body,
      voidMethod ⟨.identifier, Bytes.ofString "n"⟩ []]

theorem closers_inMethod (body : List Sketch) : (inMethod body).closers = 3 + closersAll body := by
  simp [inMethod, classFile, voidMethod, closersAll, Sketch.token, sign]
  omega

theorem Tidy.inMethod {body : List Sketch} (h : closersAll body = 0) :
    (Sketch.inMethod body).Tidy := by
  refine .classFile (by decide) ?_
  simp only [List.mem_cons, List.not_mem_nil, or_false, forall_eq_or_imp, forall_eq]
  exact ⟨.voidMethod (by decide) fun s hs => .of_closers (closersAll_eq_zero.mp h s hs),
    .voidMethod (by decide) nofun⟩

end Sketch

namespace Bytes

variable {s : Bytes}

theorem ReadsAlone.row_eq (h : s.ReadsAlone) :
    (Cursor.ofSource s.inMethod).row =
      Lexeme.inMethod ((Token.significant s).map Token.lexeme) := by
  have hfront : (Token.significant (ofString "class A \x7b void m() \x7b")).map Token.lexeme =
      [sign .kwClass, ⟨.identifier, ofString "A"⟩, sign .lbrace, sign .kwVoid,
        ⟨.identifier, ofString "m"⟩, sign .lparen, sign .rparen, sign .lbrace] := by decide +kernel
  have hback : (Token.significant (ofString "\x7d void n() \x7b\x7d \x7d")).map Token.lexeme =
      [sign .rbrace, sign .kwVoid, ⟨.identifier, ofString "n"⟩, sign .lparen, sign .rparen,
        sign .lbrace, sign .rbrace, sign .rbrace] := by decide +kernel
  refine h.trans ?_
  rw [hfront, hback]
  simp [Lexeme.inMethod, Lexeme.classHead, Lexeme.voidMethod]

/-- The only closing braces are those of the two methods and of the class. -/
theorem ReadsAlone.countP_rbrace (h : s.ReadsAlone) (hbraces : s.Braceless) :
    ((Token.significant s.inMethod).countP fun t => t.kind = .rbrace) = 3 := by
  have hcount := congrArg (List.countP fun l => l.kind = .rbrace) h.row_eq
  rw [Cursor.row, List.countP_map] at hcount
  refine hcount.trans ?_
  have hinner :
      (((Token.significant s).map Token.lexeme).countP fun l => l.kind = .rbrace) = 0 := by
    rw [List.countP_map, List.countP_eq_zero]
    intro t ht
    exact fun hkind => (hbraces t ht).2 (of_decide_eq_true hkind)
  simp [Lexeme.inMethod, Lexeme.classHead, Lexeme.voidMethod, hinner, sign]

end Bytes

/-- Reading cuts signs and may lose tokens, but makes no closing brace. -/
theorem Entry.closers_parse_le (entry : Entry) (source : Bytes) :
    (entry.parse source).sketch.closers ≤
      (Token.significant source).countP fun t => t.kind = .rbrace := by
  obtain ⟨full, back, hcut, hlacks, _⟩ := entry.exists_full source
  calc (entry.parse source).sketch.closers
      = (entry.parse source).yield.countP fun t => t.kind = .rbrace := Node.closers_sketch _
    _ ≤ full.yield.countP fun t => t.kind = .rbrace := by
        simpa using hlacks.yield_sublist.countP_le
    _ ≤ (full.yield ++ back).countP fun t => t.kind = .rbrace :=
        (List.sublist_append_left _ _).countP_le
    _ = (Token.significant source).countP fun t => t.kind = .rbrace :=
        hcut.countP_rbrace (Cursor.ofSource_solid source)

namespace Entry

variable {s : Bytes}

/-- The class is read with both methods, or a node in the first one takes a brace that it did not
open; then one of the words stands there. -/
theorem overruns_or_inMethod (hlex : s.ReadsAlone) (hbraces : s.Braceless) :
    ((∃ t ∈ Token.significant s, t.kind ∈ TokenKind.overrunWords) ∧
        ¬(compilationUnit.parse s.inMethod).Every fun n => ¬n.Overruns) ∨
      ∃ body, (compilationUnit.parse s.inMethod).sketch = .inMethod body := by
  have hinner : ∀ l ∈ (Token.significant s).map Token.lexeme, l.kind ≠ .lbrace ∧ l.kind ≠ .rbrace ∧
      (l.kind ∈ TokenKind.overrunWords →
        ∃ t ∈ Token.significant s, t.kind ∈ TokenKind.overrunWords) := by
    simp only [List.forall_mem_map]
    exact fun t ht => ⟨(hbraces t ht).1, (hbraces t ht).2, fun hword => ⟨t, ht, hword⟩⟩
  -- the row that is not known is what stands between the braces of the first method
  obtain ⟨nodes, c, hreads, hmade⟩ := Form.turnsAround_classFile rfl rfl rfl
    (Form.turnsAround_statements hinner) [] _ rfl hlex.row_eq (Cursor.ofSource_solid s.inMethod)
  obtain ⟨frame, c', hread⟩ := compilationUnit.read?_isSome s.inMethod
  obtain ⟨node, rfl⟩ := read?_eq_singleton hread
  obtain ⟨rfl, rfl⟩ := Rule.Reads.unique hreads ⟨_, hread⟩
  have hparse : compilationUnit.parse s.inMethod = node := by rw [Entry.parse, hread]
  rw [hparse]
  refine hmade.imp ?_ ?_
  · rintro ⟨hword, huntidy⟩
    exact ⟨hword, fun hevery => huntidy (by simpa [Frame.Tidy] using hevery)⟩
  · rintro ⟨body, -, hsketch, -⟩
    exact ⟨body, List.singleton_inj.mp hsketch⟩

/-- A class with two methods is read with both of them, whatever stands between the braces of the
first, exactly if no node takes a closing brace that it did not open. None does unless there is a
`try`, a `synchronized`, a `for` or an `@`. -/
theorem parse_inMethod_iff (hlex : s.ReadsAlone) (hbraces : s.Braceless) :
    ((∃ body, (compilationUnit.parse s.inMethod).sketch = .inMethod body) ↔
        (compilationUnit.parse s.inMethod).Every fun n => ¬n.Overruns) ∧
      ((∀ t ∈ Token.significant s, t.kind ∉ TokenKind.overrunWords) →
        ∃ body, (compilationUnit.parse s.inMethod).sketch = .inMethod body) := by
  have hcases := overruns_or_inMethod hlex hbraces
  refine ⟨⟨?_, fun hevery => ?_⟩, fun hwords => ?_⟩
  · rintro ⟨body, hsketch⟩
    -- the class and its methods use all the closing braces, so that the body has none
    have hle := compilationUnit.closers_parse_le s.inMethod
    rw [hlex.countP_rbrace hbraces, hsketch, Sketch.closers_inMethod] at hle
    exact Sketch.Tidy.inMethod (by omega) _ hsketch
  · exact hcases.resolve_left fun hover => hover.2 hevery
  · exact hcases.resolve_left fun ⟨⟨t, ht, hword⟩, _⟩ => hwords t ht hword

/-- A reference without a semicolon. -/
theorem parse_inMethod_of_reference :
    (Bytes.ofString "foo.bar").ReadsAlone ∧ (Bytes.ofString "foo.bar").Braceless ∧
      (∃ body, (compilationUnit.parse (Bytes.ofString "foo.bar").inMethod).sketch =
        .inMethod body) ∧
      (compilationUnit.parse (Bytes.ofString "foo.bar").inMethod).Every fun n => ¬n.Overruns := by
  have hlex : (Bytes.ofString "foo.bar").ReadsAlone := by decide +kernel
  have hbraces : (Bytes.ofString "foo.bar").Braceless := by decide +kernel
  obtain ⟨hiff, hwords⟩ := parse_inMethod_iff hlex hbraces
  have hbody := hwords (by decide +kernel)
  exact ⟨hlex, hbraces, hbody, hiff.mp hbody⟩

/-- The bytes have no brace and no effect on the tokens around them, and yet the class that is read
has one method only. -/
def TakesMethod (s : Bytes) : Prop :=
  s.ReadsAlone ∧ s.Braceless ∧ (compilationUnit.parse s.inMethod).Every fun n =>
    n.kind = .classBody → (n.children.countP fun m => m.kind = .methodDecl) = 1

theorem takesMethod_of_check (hlex : s.ReadsAlone) (hbraces : s.Braceless)
    (hall : (compilationUnit.parse s.inMethod).all (fun n =>
      n.kind = .classBody → (n.children.countP fun m => m.kind = .methodDecl) = 1) = true) :
    TakesMethod s :=
  ⟨hlex, hbraces, (Node.all_eq_true.mp hall).imp fun _ h => of_decide_eq_true h.own⟩

/-- Each of the three kinds of nodes may take the brace of the method. -/
theorem loses_second_method :
    TakesMethod (Bytes.ofString "try") ∧ TakesMethod (Bytes.ofString "new @A(") ∧
      TakesMethod (Bytes.ofString "for (a<b<.c>> x : y") := by
  refine ⟨takesMethod_of_check ?_ ?_ ?_, takesMethod_of_check ?_ ?_ ?_,
    takesMethod_of_check ?_ ?_ ?_⟩
  all_goals decide +kernel

end Entry

end DotCompletion
