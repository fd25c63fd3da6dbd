import DotCompletion.Proofs.WrittenType.Declaration
import DotCompletion.Proofs.WrittenType.Text
import DotCompletion.Typing.Inference

/-!
# Declared types are told back

A variable has the type that it was declared with: where a declaration and a use of the variable
are laid out in any way, the type of the use is the text of the type that was written
(`Tree.typeOf_written`).
-/

namespace DotCompletion

open Lexeme (sign)

open Node (Numbered)

/-- The first token of a type in its tree. -/
theorem WrittenType.exists_sketch_first (t : WrittenType) :
    ∃ kind l children, t.sketch = .node .typeUse (.leaf kind l :: children) ∧ l.kind ∈ starts := by
  cases t with
  | primitive k dims => exact ⟨.token, sign k, _, rfl, List.mem_cons_of_mem _ k.2⟩
  | named n dims =>
      cases n with
      | last x args => exact ⟨.identifier, ⟨.identifier, x⟩, _, rfl, List.mem_cons_self⟩
      | dotted x args rest => exact ⟨.identifier, ⟨.identifier, x⟩, _, rfl, List.mem_cons_self⟩

/-- The statements are read as a declaration and a use. -/
theorem WrittenType.sketch_parse (t : WrittenType) (x : Expr.Name) {source : Bytes}
    (h : Lexeme.Lays (t.program x) source) :
    (Entry.statements.parse source).sketch = t.block x := by
  have htidy : Lexeme.Tidy (t.program x) := by
    have hstatement : ∀ {row}, Lexeme.Tidy row → Lexeme.Tidy (statementOf x ++ row) :=
      fun hrow => (hrow.sign .semicolon (by decide) nofun nofun).name x
    have hboth := hstatement (hstatement .nil)
    rw [List.append_nil] at hboth
    exact t.tidy hboth
  obtain ⟨row, hrow, hturns⟩ := t.turns_block x _ (h.fuses htidy .origin)
  obtain ⟨nodes, c, hreads, hnodes, -⟩ := hturns [] (.ofSource source) rfl rfl
  obtain ⟨node, rfl, hsketch⟩ := List.map_eq_singleton_iff.mp hnodes
  have hparse : Entry.statements.parse source = node := Entry.parse_eq hreads
  rw [hparse, hsketch]

/-- Nothing in the tree marks an error. -/
theorem WrittenType.block_sound (t : WrittenType) (x : Expr.Name) : (t.block x).Sound := by
  have htype := t.writes.sound t.sketch List.mem_cons_self
  simp [block, declaration, use, Expr.sketch, htype]

namespace Tree

variable {source : Bytes} {root n m : Node} {id : Nat} {above : List (Nat × Node)}

theorem tokenText_eq (h : Numbered root id n above) {t : Token} (htoken : n.token = some t) :
    (ofNode source (some root)).tokenText (some id) = t.literal := by
  rw [tokenText, Option.bind_some, token?_eq h, htoken]
  rfl

/-- A type that is written is not to be told from a value. -/
theorem infersTypes_eq_false (h : Numbered root id n above) (t : WrittenType) {back : List Node}
    (hsplit : n.children = m :: back) (hsketch : m.sketch = t.sketch) :
    (ofNode source (some root)).infersTypes id = false := by
  obtain ⟨kind, l, children, ht, hl⟩ := t.exists_sketch_first
  rw [ht] at hsketch
  obtain ⟨hkind, -, hchildren⟩ := Node.of_sketch_node hsketch
  obtain ⟨first, rest, hm, hfirst, -⟩ := List.map_eq_cons_iff.mp hchildren
  obtain ⟨-, ⟨token, htoken, rfl⟩, -⟩ := Node.of_sketch_leaf hfirst
  have hnumbered := h.first hsplit
  have hvar : ∀ k ∈ WrittenType.starts, k ≠ .kwVar := by decide
  have hnot : (some token.kind == some TokenKind.kwVar) = false :=
    beq_eq_false_iff_ne.mpr fun heq => hvar _ hl (Option.some.inj heq)
  rw [infersTypes, ← hkind, firstOfKind?_first h hsplit, Option.bind_some,
    firstChild?_eq hnumbered hm, Option.bind_some, token?_eq (hnumbered.first hm), htoken]
  exact hnot

/-- A declarator without brackets. -/
theorem dimensions_eq_zero (h : Numbered root id n above) (hsplit : n.children = [m])
    (hkind : m.kind ≠ .token) : (ofNode source (some root)).dimensions id = 0 := by
  have hnot : (ofNode source (some root)).isA .token (id + 1) = false := by
    rw [isA_eq (h.first hsplit), beq_eq_false_iff_ne]
    exact hkind
  rw [dimensions, children_eq h, hsplit, Node.numbers, Node.numbers]
  simp [hnot]

/-- The variable that is declared has the type that is written. -/
theorem variableBinding?_eq (h : Numbered root id n above) (t : WrittenType) (x : Expr.Name)
    (hsketch : n.sketch = t.declaration x) :
    (ofNode source (some root)).variableBinding? id x = some (.known ⟨t.text⟩) := by
  obtain ⟨-, -, hchildren⟩ := Node.of_sketch_node hsketch
  obtain ⟨type, rest, hn, htype, hrest⟩ := List.map_eq_cons_iff.mp hchildren
  obtain ⟨declarator, rest, rfl, hdeclarator, -⟩ := List.map_eq_cons_iff.mp hrest
  obtain ⟨hkind, -, hname⟩ := Node.of_sketch_node hdeclarator
  obtain ⟨name, hdc, hleaf⟩ := List.map_eq_singleton_iff.mp hname
  obtain ⟨hidentifier, ⟨token, htoken, hx⟩, -⟩ := Node.of_sketch_leaf hleaf
  have htypeKind : type.kind = .typeUse := by
    obtain ⟨_, _, _, ht, -⟩ := t.exists_sketch_first
    exact (Node.of_sketch_node (htype.trans ht)).1
  have hfirst := h.first hn
  have hsecond : Numbered root (id + 1 + type.size) declarator ((id, n) :: above) :=
    @Numbered.child root id n declarator above [type] rest h hn
  have hbase : ((ofNode source (some root)).firstOfKind? [.typeUse] id).bind
      (ofNode source (some root)).writtenType? = some ⟨t.text⟩ := by
    rw [← htypeKind, firstOfKind?_first h hn, Option.bind_some, writtenType?_eq hfirst t htype]
  have hspelled : (ofNode source (some root)).tokenText
      ((ofNode source (some root)).firstOfKind? [.identifier] (id + 1 + type.size)) = x := by
    rw [← hidentifier, firstOfKind?_first hsecond hdc,
      tokenText_eq (hsecond.first hdc) htoken]
    exact congrArg Lexeme.text hx
  have hdims : (ofNode source (some root)).dimensions (id + 1 + type.size) = 0 :=
    dimensions_eq_zero hsecond hdc (by rw [hidentifier]; nofun)
  have hfind : ((ofNode source (some root)).children id).find? (fun v =>
      (ofNode source (some root)).isA .declarator v && (ofNode source (some root)).tokenText
        ((ofNode source (some root)).firstOfKind? [.identifier] v) == x) =
      some (id + 1 + type.size) := by
    rw [children_eq h, hn, Node.numbers, List.find?_cons_of_neg, Node.numbers,
      List.find?_cons_of_pos]
    · rw [isA_eq hsecond, hkind, hspelled]
      simp
    · rw [isA_eq hfirst, htypeKind]
      simp
  rw [variableBinding?]
  simp only [hfind, infersTypes_eq_false h t hn htype, hbase, hdims, Option.map_some,
    Bool.false_eq_true, if_false]
  simp [StaticType.arrayOf]

/-- A declaration in front of the statement says what a name means there. -/
theorem nameBinding?_eq {declaration statement : Node} (name : Bytes)
    (hblock : root.kind = .block) (hchildren : root.children = [declaration, statement])
    (hdeclaration : declaration.kind = .localVarDecl) (hstatement : statement.kind = .exprStmt)
    (h : Numbered root id n [(0 + 1 + Node.sizeAll [declaration], statement), (0, root)]) :
    (ofNode source (some root)).nameBinding? id name =
      (ofNode source (some root)).variableBinding? 1 name := by
  have hfirst : Numbered root 1 declaration [(0, root)] := Numbered.root.first hchildren
  have hbefore : (ofNode source (some root)).before (0 + 1 + Node.sizeAll [declaration]) = [1] :=
    @before_eq source root root 0 [] .root [declaration] [] statement hchildren
  have hinner : (ofNode source (some root)).bindingIn? name id
      (0 + 1 + Node.sizeAll [declaration]) = none := by
    rw [bindingIn?, kind?_eq h.parent, hstatement]
  have houter : (ofNode source (some root)).bindingIn? name
      (0 + 1 + Node.sizeAll [declaration]) 0 =
        (ofNode source (some root)).variableBinding? 1 name := by
    rw [bindingIn?, kind?_eq .root, hblock, hbefore, List.findSome?_cons, siblingBinding?,
      kind?_eq hfirst, hdeclaration]
    cases (ofNode source (some root)).variableBinding? 1 name <;> rfl
  rw [nameBinding?, ancestors_eq h]
  simp only [List.map_cons, List.map_nil, List.zip_cons_cons, List.zip_nil_right,
    List.findSome?_cons, hinner, houter]
  cases (ofNode source (some root)).variableBinding? 1 name <;> rfl

/-- A name without anything in front of it has the type that its declaration says. -/
theorem typeOf_name (h : Numbered root id n above) (x : Expr.Name)
    (hsketch : n.sketch = (Expr.name x).sketch) {type : StaticType}
    (hbinding : (ofNode source (some root)).nameBinding? id x = some (.known type)) :
    (ofNode source (some root)).typeOf id = some type := by
  obtain ⟨hkind, -, hchildren⟩ := Node.of_sketch_node hsketch
  obtain ⟨params, rest, hn, hparams, hrest⟩ := List.map_eq_cons_iff.mp hchildren
  obtain ⟨name, rfl, hname⟩ := List.map_eq_singleton_iff.mp hrest
  obtain ⟨hlist, -, -⟩ := Node.of_sketch_node hparams
  obtain ⟨hidentifier, ⟨token, htoken, hx⟩, -⟩ := Node.of_sketch_leaf hname
  have hfirst := h.first hn
  have hsecond : Numbered root (id + 1 + Node.sizeAll [params]) name ((id, n) :: above) :=
    .child h hn
  have hlast : (ofNode source (some root)).lastChild? id =
      some (id + 1 + Node.sizeAll [params]) := lastChild?_eq h hn
  have hisName : (ofNode source (some root)).isA .identifier (id + 1 + Node.sizeAll [params]) =
      true := by
    rw [isA_eq hsecond, hidentifier]
    rfl
  have hisList : (ofNode source (some root)).isA .referenceParameterList (id + 1) = true := by
    rw [isA_eq hfirst, hlist]
    rfl
  have hspelled : (ofNode source (some root)).tokenText
      (some (id + 1 + Node.sizeAll [params])) = x :=
    (tokenText_eq hsecond htoken).trans (congrArg Lexeme.text hx)
  have hreference : (ofNode source (some root)).referenceStep id = .always (some type) := by
    rw [referenceStep, firstChild?_eq h hn, hlast, Option.filter_some, if_pos hisName]
    simp only [hspelled, hisList, if_true, hbinding]
    rfl
  have hstep : (ofNode source (some root)).step id = .always (some type) := by
    rw [step, kind?_eq h, hkind, hreference]
  rw [typeOf, infer, hstep]
  rfl

/-- However a declaration and a use of a variable are laid out, the tree has no error, and the
type of the use is the text of the type that was written. -/
theorem typeOf_written (t : WrittenType) (x : Expr.Name) (source : Bytes)
    (h : Lexeme.Lays (t.program x) source) :
    (∀ id, (Tree.parse .statements source).kind? id ≠ some .error) ∧
    ∃ declaration statement use,
      (Tree.parse .statements source).root? = some 0 ∧
      (Tree.parse .statements source).children 0 = [declaration, statement] ∧
      (Tree.parse .statements source).kind? declaration = some .localVarDecl ∧
      (Tree.parse .statements source).kind? statement = some .exprStmt ∧
      (Tree.parse .statements source).firstChild? statement = some use ∧
      (Tree.parse .statements source).typeOf use = some ⟨t.text⟩ := by
  have hsketch := t.sketch_parse x h
  have hsound := Node.every_of_sound _ (hsketch ▸ t.block_sound x)
  rw [Tree.parse]
  generalize Entry.statements.parse source = root at hsketch hsound
  obtain ⟨hblock, -, hchildren⟩ := Node.of_sketch_node hsketch
  obtain ⟨declaration, rest, hroot, hdeclaration, hrest⟩ := List.map_eq_cons_iff.mp hchildren
  obtain ⟨statement, rfl, hstatement⟩ := List.map_eq_singleton_iff.mp hrest
  obtain ⟨hdeclared, -, -⟩ := Node.of_sketch_node hdeclaration
  obtain ⟨hused, -, hparts⟩ := Node.of_sketch_node hstatement
  obtain ⟨use, parts, hs, huse, -⟩ := List.map_eq_cons_iff.mp hparts
  have hfirst : Numbered root 1 declaration [(0, root)] := Numbered.root.first hroot
  have hsecond : Numbered root (0 + 1 + Node.sizeAll [declaration]) statement [(0, root)] :=
    @Numbered.child root 0 root statement [] [declaration] [] .root hroot
  have hinner := hsecond.first hs
  have hbinding : (ofNode source (some root)).nameBinding?
      (0 + 1 + Node.sizeAll [declaration] + 1) x = some (.known ⟨t.text⟩) :=
    (nameBinding?_eq x hblock hroot hdeclared hused hinner).trans
      (variableBinding?_eq hfirst t x hdeclaration)
  constructor
  · intro id herror
    obtain ⟨n, above, hn⟩ | houtside := numbered_or_outside root id
    · rw [kind?_eq hn, Option.some.injEq] at herror
      exact (hn.every hsound).own herror
    · rw [kind?, slot?_eq_none houtside] at herror
      cases herror
  · refine ⟨1, 0 + 1 + Node.sizeAll [declaration], 0 + 1 + Node.sizeAll [declaration] + 1,
      root?_ofNode, ?_, ?_, ?_, ?_, ?_⟩
    · rw [children_eq .root, hroot]
      simp [Node.numbers, Node.sizeAll_cons, Node.sizeAll_nil]
    · rw [kind?_eq hfirst, hdeclared]
    · rw [kind?_eq hsecond, hused]
    · exact firstChild?_eq hsecond hs
    · exact typeOf_name hinner x huse hbinding

end Tree

/-- `p.M<L<? super int>>[]` -/
def WrittenType.sample : WrittenType :=
  let name (text : String) (h : Lexeme.IsName (Bytes.ofString text)) : Expr.Name := ⟨_, h⟩
  let bound := TypeArgument.bounded ⟨.kwSuper, by decide⟩ (.primitive ⟨.kwInt, by decide⟩ 0)
  let list := WrittenType.named (.last (name "L" (by decide)) [bound]) 0
  .named (.dotted (name "p" (by decide)) [] (.last (name "M" (by decide)) [.exact list])) 1

theorem WrittenType.sample_lays :
    Lexeme.Lays (sample.program ⟨Bytes.ofString "x", by decide⟩)
      (Bytes.ofString "p.M<L<? super int>>[ ] /* all */x;x ;// used") := by
  have hblank : Scan.IsGap [' '.toUInt8] := .space (by decide) .nothing
  have hcomment : Scan.IsGap (' '.toUInt8 :: (Bytes.ofString "/*" ++ (Bytes.ofString " all " ++
      (Bytes.ofString "*/" ++ [])))) :=
    .space (by decide) (.block (by decide) .nothing)
  have hend : Scan.IsEnd ([] ++ (Bytes.ofString "//" ++ Bytes.ofString " used")) :=
    .line .nothing (by decide)
  have hlays : Lexeme.Lays (sample.program ⟨Bytes.ofString "x", by decide⟩) _ :=
    .cons .nothing (by decide) (.cons .nothing (by decide) (.cons .nothing (by decide)
      (.cons .nothing (by decide) (.cons .nothing (by decide) (.cons .nothing (by decide)
        (.cons .nothing (by decide) (.cons hblank (by decide) (.cons hblank (by decide)
          (.cons .nothing (by decide) (.cons .nothing (by decide) (.cons .nothing (by decide)
            (.cons hblank (by decide) (.cons hcomment (by decide) (.cons .nothing (by decide)
              (.cons .nothing (by decide) (.cons hblank (by decide) (.nil hend)))))))))))))))))
  refine (congrArg (Lexeme.Lays _) ?_).mpr hlays
  decide +kernel

theorem Tree.typeOf_written_sample :
    Lexeme.Lays (WrittenType.sample.program ⟨Bytes.ofString "x", by decide⟩)
        (Bytes.ofString "p.M<L<? super int>>[ ] /* all */x;x ;// used") ∧
      ∃ id, (Tree.parse .statements
        (Bytes.ofString "p.M<L<? super int>>[ ] /* all */x;x ;// used")).typeOf id =
          some ⟨Bytes.ofString "p.M<L<? super int>>[]"⟩ := by
  obtain ⟨-, _, _, use, -, -, -, -, -, htype⟩ := Tree.typeOf_written _ _ _ WrittenType.sample_lays
  have htext : WrittenType.sample.text = Bytes.ofString "p.M<L<? super int>>[]" := by decide
  rw [htext] at htype
  exact ⟨WrittenType.sample_lays, use, htype⟩

end DotCompletion
