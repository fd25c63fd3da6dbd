import DotCompletion.Completion.Request
import DotCompletion.Proofs.Completion.Sites
import DotCompletion.Proofs.Grammar.LastStatement
import DotCompletion.Proofs.Token.Insertion

/-!
# A number in place of a name

Behind a name and a dot, the name of a template belongs to the expression in front of it.
Behind digits and a dot it does not: the dot belongs to the number, and the name stands in
a statement of its own. The candidates are the same in both cases, but for their last word
(`Request.candidates_agree`).
-/

namespace DotCompletion

open Node (Numbered)
open Layer (spine lastNumber)

namespace Candidate

/-- The candidates are the same but for the last word. -/
structure Agree (word word' : Bytes) (c c' : Candidate) : Prop where
  canBeStatement : c.canBeStatement = c'.canBeStatement
  text : ∃ front, c.text = front ++ word ∧ c'.text = front ++ word'

end Candidate

namespace Site

/-- The first statement of the tree begins with operations around a last operand, and the
last word of the operand is the target. -/
structure Ends (s : Site) (text word rest : Bytes) (root statement x : Node)
    (layers : List Layer) : Prop where
  tree : s.tree = .ofNode (text ++ word ++ rest) (some root)
  laid : root.Every (Node.Laid (text ++ word ++ rest))
  expression : Numbered root 2 (x.wrapped layers) [(1, statement), (0, root)]
  isStatement : statement.kind = .exprStmt
  children : ∃ back, statement.children = x.wrapped layers :: back
  isExpression : x.kind.isExpression = true
  token : ∃ t ∈ x.yield, t.lo = text.length
  reference : lastNumber 2 layers ≤ s.reference
  first : s.tree.firstChild? s.reference = some (s.reference + 1)
  /-- Between target and operations stands the reference at most. -/
  target : ∃ q front, Numbered root s.target q (front ++
      ((spine 2 layers).map (fun a => (a.1, x.wrapped a.2)) ++ [(1, statement), (0, root)])) ∧
    q.lo = text.length ∧ ∀ a ∈ front, a.1 = s.reference ∧ a.2.kind = .referenceExpr
  stop : s.stop = x.hi
  contentEnd : s.contentEnd.offset = (text ++ word).length

namespace Ends

variable {s : Site} {text word rest : Bytes} {root statement x : Node} {layers : List Layer}

theorem outer_eq (h : s.Ends text word rest root statement x layers) :
    s.outer = (spine 2 layers).map Prod.fst := by
  obtain ⟨q, front, hq, -, hfront⟩ := h.target
  have hancestors : s.tree.ancestors s.target =
      front.map Prod.fst ++ (spine 2 layers).map Prod.fst ++ 1 :: [0] := by
    rw [h.tree, Tree.ancestors_eq hq]
    simp
  refine Site.outer_eq hancestors ?_ ?_ ?_
  · intro i hi
    obtain ⟨a, ha, rfl⟩ := List.mem_map.mp hi
    obtain ⟨before, behind, rfl⟩ := List.append_of_mem ha
    obtain ⟨hreference, hkind⟩ := hfront a ha
    rw [List.append_assoc] at hq
    refine ⟨?_, hreference⟩
    rw [h.tree, Tree.isExpression, Tree.hasKind_eq (hq.outer rfl), hkind]
    rfl
  · intro i hi
    obtain ⟨a, ha, rfl⟩ := List.mem_map.mp hi
    obtain ⟨outer, -, hnode⟩ := h.expression.of_mem_spine ha
    refine ⟨?_, ?_, ?_⟩
    · rw [h.tree, Tree.isExpression, Tree.hasKind_eq hnode]
      exact Node.isExpression_of_operation (Node.kind_of_mem_spine ha x)
    · have hlt := (Layer.mem_spine ha).2.1
      have hle := h.reference
      omega
    · rw [spanOf_eq h.tree hnode, h.stop]
      exact Node.wrapped_hi a.2 x
  · have hstatement : Numbered root 1 statement [(0, root)] := h.expression.parent
    rw [h.tree, Tree.isExpression, Tree.hasKind_eq hstatement, h.isStatement]
    rfl

theorem canBeStatement_of_mem (h : s.Ends text word rest root statement x layers)
    {a : Nat × List Layer} (ha : a ∈ spine 2 layers) : s.canBeStatement a.1 = (2 == a.1) := by
  obtain ⟨outer, houter, hnode⟩ := h.expression.of_mem_spine ha
  obtain ⟨back, hchildren⟩ := h.children
  have hlt := (Layer.mem_spine ha).2.1
  have hle := h.reference
  have hkinds : ∀ k ∈ NodeKind.operations, k.isStatement = false := by decide
  rw [canBeStatement_eq h.tree hnode ?_ h.isStatement hchildren
    (Node.isExpression_wrapped layers h.isExpression), h.first]
  · have hne : s.reference + 1 ≠ a.1 := by omega
    simp [hne]
  · intro b hb
    obtain ⟨c, hc, rfl⟩ := List.mem_map.mp hb
    exact hkinds _ (Node.kind_of_mem_spine (houter hc) x)

/-- The expression of the statement is the target, or the reference behind it. -/
theorem canBeStatement_target (h : s.Ends text word rest root statement x layers)
    (htarget : s.target = s.reference + 1 ∧ s.reference = lastNumber 2 layers ∨
      s.target = lastNumber 2 layers ∧ s.target < s.reference) :
    s.canBeStatement s.target = (2 == lastNumber 2 layers) := by
  obtain ⟨q, front, hq, -, hfront⟩ := h.target
  obtain ⟨back, hchildren⟩ := h.children
  have hle := Layer.le_lastNumber 2 layers
  have hkinds : ∀ k ∈ NodeKind.operations, k.isStatement = false := by decide
  rw [← List.append_assoc] at hq
  rw [canBeStatement_eq h.tree hq ?_ h.isStatement hchildren
    (Node.isExpression_wrapped layers h.isExpression), h.first]
  · rcases htarget with ⟨htarget, hreference⟩ | ⟨htarget, hlt⟩
    · have hne : 1 + 1 ≠ s.reference + 1 := by omega
      simp [htarget, hreference]
      omega
    · have hne : 1 + 1 ≠ s.reference := by omega
      simp [htarget]
      omega
  · intro a ha
    rcases List.mem_append.mp ha with ha | ha
    · rw [(hfront a ha).2]
      rfl
    · obtain ⟨b, hb, rfl⟩ := List.mem_map.mp ha
      exact hkinds _ (Node.kind_of_mem_spine hb x)

theorem text_of_mem (h : s.Ends text word rest root statement x layers) {k : Nat} {l : Layer}
    {inner : List Layer} (hl : (k, l :: inner) ∈ spine 2 layers) :
    (s.candidate k).text = text.drop l.start ++ word := by
  obtain ⟨outer, -, hnode⟩ := h.expression.of_mem_spine hl
  obtain ⟨t, ht, htlo⟩ := h.token
  have hlo : (x.wrapped (l :: inner)).lo = l.start := l.wrap_lo _
  have hcovers := (hnode.every h.laid).own.covers t (Node.mem_yield_wrapped (l :: inner) ht)
  rw [text_candidate h.tree hnode (by omega) h.contentEnd, hlo]

theorem text_target (h : s.Ends text word rest root statement x layers) :
    (s.candidate s.target).text = word := by
  obtain ⟨q, front, hq, hlo, -⟩ := h.target
  rw [text_candidate h.tree hq (Nat.le_of_eq hlo) h.contentEnd, hlo, List.drop_length,
    List.nil_append]

theorem agree {s' : Site} {word' rest' : Bytes} {root' statement' x' : Node}
    (h : s.Ends text word rest root statement x layers)
    (h' : s'.Ends text word' rest' root' statement' x' layers)
    (htarget : s.canBeStatement s.target = s'.canBeStatement s'.target) :
    List.Forall₂ (Candidate.Agree word word') s.candidates s'.candidates := by
  rw [candidates, candidates, h.outer_eq, h'.outer_eq, List.map_cons, List.map_cons]
  refine .cons ⟨htarget, [], h.text_target, h'.text_target⟩ ?_
  rw [List.map_map, List.map_map, List.forall₂_map_left_iff, List.forall₂_map_right_iff,
    List.forall₂_same]
  rintro ⟨k, row⟩ ha
  obtain ⟨-, -, l, inner, rfl⟩ := Layer.mem_spine ha
  exact ⟨(h.canBeStatement_of_mem ha).trans (h'.canBeStatement_of_mem ha).symm, text.drop l.start,
    h.text_of_mem ha, h'.text_of_mem ha⟩

end Ends

end Site

/-! ## The two trees -/

section

variable {text word rest : Bytes} {layers : List Layer} {tree : Tree} {root : Node}
  {y dot number last semi : Token} {offset : Nat}

theorem Node.operand_of_name (h : last.kind = .identifier) : Node.operand last = .name last := by
  rw [operand, h]
  rfl

theorem Node.operand_of_float (h : number.kind = .floatLiteral) :
    Node.operand number = .leaf .literal number := by
  rw [operand, h]
  rfl

/-- A name behind the last operand selects from it. -/
theorem Site.Ends.of_selection (htree : tree = .ofNode (text ++ word ++ rest) (some root))
    (hlaid : root.Every (Node.Laid (text ++ word ++ rest)))
    (hroot : root = .group .block [.group .exprStmt
      [(Node.selection (.operand y) dot last).wrapped layers, .leaf .token semi]])
    (hy : y.kind = .identifier) (hlo : y.lo = text.length) (hhi : y.hi = (text ++ word).length)
    (hlast : last.kind = .identifier) (hlt : last.lo < offset) (hle : offset ≤ last.hi)
    (force : Bool) :
    ∃ r, tree.resolve (tree.leafAt? offset) = .ok r ∧ r.route = .qualifier ∧
      ∃ statement x, (Site.mk tree r force).Ends text word rest root statement x layers ∧
        (Site.mk tree r force).canBeStatement r.target = (2 == lastNumber 2 layers) := by
  have hoperand := Node.operand_of_name hy
  generalize hx : Node.selection (.operand y) dot last = x at hroot
  generalize hstatement : Node.group .exprStmt [x.wrapped layers, .leaf .token semi] = statement
    at hroot
  have hstatementNode : Numbered root 1 statement [(0, root)] :=
    .child .root (show root.children = [] ++ statement :: [] by rw [hroot]; rfl)
  have hexpression : Numbered root 2 (x.wrapped layers) [(1, statement), (0, root)] :=
    .child hstatementNode (show statement.children = [] ++ x.wrapped layers :: _ by
      rw [← hstatement]; rfl)
  have hreference := hexpression.wrapped
  have hchildren : x.children = [Node.name y, .leaf .token dot] ++
      [Node.around .referenceParameterList none last.span.start []] ++
        .leaf .identifier last :: [] := by
    rw [← hx, ← hoperand]
    rfl
  have hname := Numbered.child hreference hchildren
  have hq := Numbered.child hreference (show x.children = [] ++ .name y :: _ from hchildren)
  have hkind : x.kind = .referenceExpr := by rw [← hx]; rfl
  have hyield : y ∈ x.yield := by
    rw [Node.yield_eq, hchildren]
    simp [Node.name, Node.yield_leaf _ (show y.kind ≠ .eof by rw [hy]; exact nofun)]
  have hleaf := Tree.leafAt?_of_covers hlaid hname rfl (by rw [hlast]; exact nofun) hlt hle
  refine ⟨⟨.qualifier, lastNumber 2 layers, lastNumber 2 layers + 1⟩, ?_, rfl, statement, x, ?_⟩
  · rw [htree, hleaf, Tree.resolve_eq hname rfl hkind, Tree.qualifier?_eq hreference hchildren]
    rfl
  · obtain ⟨hstop, hcontentEnd⟩ := Site.ends_of_qualifier
      (s := ⟨tree, ⟨.qualifier, lastNumber 2 layers, lastNumber 2 layers + 1⟩, force⟩) htree rfl
      hreference hq
    have hends : (Site.mk tree ⟨.qualifier, lastNumber 2 layers, lastNumber 2 layers + 1⟩
        force).Ends text word rest root statement x layers :=
      { tree := htree
        laid := hlaid
        expression := hexpression
        isStatement := by rw [← hstatement]; rfl
        children := ⟨_, by rw [← hstatement]; rfl⟩
        isExpression := by rw [hkind]; rfl
        token := ⟨y, hyield, hlo⟩
        reference := Nat.le_refl _
        first := by rw [htree]; exact Tree.firstChild?_eq hreference hchildren
        target := ⟨.name y, [(lastNumber 2 layers, x)], hq, hlo, by simp [Site.reference, hkind]⟩
        stop := hstop
        contentEnd := hcontentEnd.trans (congrArg _ hhi) }
    exact ⟨hends, hends.canBeStatement_target (.inl ⟨rfl, rfl⟩)⟩

/-- A number in place of the last operand leaves the name to another statement. -/
theorem Site.Ends.of_number (htree : tree = .ofNode (text ++ word ++ rest) (some root))
    (hlaid : root.Every (Node.Laid (text ++ word ++ rest))) {p : Position} {d : Diagnostic}
    (hroot : root = .group .block
      [.group .exprStmt [(Node.operand number).wrapped layers, .missing p d],
        .group .exprStmt [.operand last, .leaf .token semi]])
    (hnumber : number.kind = .floatLiteral) (hdot : Bytes.endsWith '.' number.literal = true)
    (hlo : number.lo = text.length) (hhi : number.hi = (text ++ word).length + 1)
    (hlast : last.kind = .identifier) (hlt : last.lo < offset) (hle : offset ≤ last.hi)
    (force : Bool) :
    ∃ r, tree.resolve (tree.leafAt? offset) = .ok r ∧ r.route = .brokenLiteral ∧
      ∃ statement x, (Site.mk tree r force).Ends text word rest root statement x layers ∧
        (Site.mk tree r force).canBeStatement r.target = (2 == lastNumber 2 layers) := by
  rw [Node.operand_of_float hnumber, Node.operand_of_name hlast] at hroot
  generalize hx : Node.leaf .literal number = x at hroot
  generalize hfirst : Node.group .exprStmt [x.wrapped layers, .missing p d] = first at hroot
  generalize hsecond : Node.group .exprStmt [.name last, .leaf .token semi] = second at hroot
  have hkind : x.kind = .literal := by rw [← hx]; rfl
  have htoken : x.token = some number := by rw [← hx]; rfl
  have hisExpression : x.kind.isExpression = true := by rw [hkind]; rfl
  have hchildren : root.children = [first, second] := by rw [hroot]; rfl
  have hfirstChildren : first.children = [x.wrapped layers, .missing p d] := by rw [← hfirst]; rfl
  have hfirstNode : Numbered root 1 first [(0, root)] :=
    .child .root (show root.children = [] ++ first :: _ from hchildren)
  have hexpression : Numbered root 2 (x.wrapped layers) [(1, first), (0, root)] :=
    .child hfirstNode (show first.children = [] ++ x.wrapped layers :: _ from hfirstChildren)
  have htarget := hexpression.wrapped
  have hsecondNode := Numbered.child .root
    (show root.children = [first] ++ second :: [] from hchildren)
  have hreference := Numbered.child hsecondNode
    (show second.children = [] ++ .name last :: _ by rw [← hsecond]; rfl)
  have hname := Numbered.child hreference (show (Node.name last).children =
    [Node.around .referenceParameterList none last.span.start []] ++ .leaf .identifier last :: []
    from rfl)
  have hleaf := Tree.leafAt?_of_covers hlaid hname rfl (by rw [hlast]; exact nofun) hlt hle
  generalize hnumbers : 0 + 1 + Node.sizeAll [first] = behind at hsecondNode hreference hname hleaf
  have hfollows : (Tree.ofNode (text ++ word ++ rest) (some root)).Follows _ 2 _ 1 :=
    Tree.follows_of_children (hnumbers ▸ hreference) (by rw [← hsecond]; rfl) hchildren
      (by rw [← hfirst]; rfl) hfirstChildren (Node.isExpression_wrapped layers hisExpression) rfl
  rw [hnumbers] at hfollows
  have hrecovers : (Tree.ofNode (text ++ word ++ rest) (some root)).Recovers (behind + 1)
      (lastNumber 2 layers) :=
    ⟨Tree.isBare_of_children hreference rfl rfl, _, _, _, hfollows,
      Tree.brokenLiteral?_wrapped hexpression hkind htoken hnumber hdot⟩
  have hbehind : lastNumber 2 layers < behind := by
    have hrange := (htarget.range_of_mem_above (show (1, first) ∈ _ by simp)).2
    have hpos := x.size_pos
    simp only [Node.sizeAll_cons, Node.sizeAll_nil] at hnumbers hrange
    omega
  have hyield : number ∈ x.yield := by
    rw [← hx, Node.yield_leaf _ (show number.kind ≠ .eof by rw [hnumber]; exact nofun)]
    exact List.mem_singleton_self _
  have hxlo : x.lo = text.length := by rw [← hx]; exact hlo
  have hxhi : x.hi = (text ++ word).length + 1 := by rw [← hx]; exact hhi
  refine ⟨⟨.brokenLiteral, behind + 1, lastNumber 2 layers⟩, ?_, rfl, first, x, ?_⟩
  · rw [htree, hleaf, Tree.resolve_eq hname rfl rfl, Tree.qualifier?_eq hreference rfl]
    exact hrecovers.resolveBroken_eq
  · obtain ⟨hstop, hcontentEnd⟩ := Site.ends_of_brokenLiteral
      (s := ⟨tree, ⟨.brokenLiteral, behind + 1, lastNumber 2 layers⟩, force⟩) htree rfl htarget
    have hends : (Site.mk tree ⟨.brokenLiteral, behind + 1, lastNumber 2 layers⟩ force).Ends
        text word rest root first x layers :=
      { tree := htree
        laid := hlaid
        expression := hexpression
        isStatement := by rw [← hfirst]; rfl
        children := ⟨_, hfirstChildren⟩
        isExpression := hisExpression
        token := ⟨number, hyield, hlo⟩
        reference := Nat.le_of_lt (Nat.lt_succ_of_lt hbehind)
        first := by rw [htree]; exact Tree.firstChild?_eq hreference rfl
        target := ⟨x, [], htarget, hxlo, nofun⟩
        stop := hstop
        contentEnd := by rw [hcontentEnd, hxhi]; omega }
    exact ⟨hends, hends.canBeStatement_target (.inr ⟨rfl, Nat.lt_succ_of_lt hbehind⟩)⟩

end

namespace Request

/-- The tree that completion at the end of a row of statements looks at. -/
def treeAtEnd (source : Bytes) : Tree := .parse .statements (patch source source.length)

/-- What completion at the end of a row of statements finds. -/
def resolveAtEnd (source : Bytes) : Except NoMatch Resolution :=
  (treeAtEnd source).resolve ((treeAtEnd source).leafAt? (source.length + dummy.length))

/-- The request is for completion at the end of a row of statements. -/
structure AtEnd (q : Request) (source : Bytes) : Prop where
  entry : q.entry = .statements
  offset : Source.offset? source q.line q.column = some source.length

/-- The request leads to a site: whoever makes proposals is asked about it. -/
structure LeadsTo (q : Request) (source : Bytes) (s : Site) : Prop where
  tree : s.tree = treeAtEnd source
  resolves : resolveAtEnd source = .ok s.resolution
  complete (m : Manager) : q.complete m source =
    .ok ((m.proposalsAt s).map (clamp ⟨source.length, q.line.toNat, q.column.toNat⟩))

theorem AtEnd.leadsTo {q : Request} {source : Bytes} {r : Resolution} (h : q.AtEnd source)
    (hr : resolveAtEnd source = .ok r) : q.LeadsTo source ⟨treeAtEnd source, r, q.force⟩ where
  tree := rfl
  resolves := hr
  complete m := by
    have hresolve : (treeAtEnd source).resolve
        ((treeAtEnd source).leafAt? (source.length + dummy.length)) = .ok r := hr
    have havailable : m.available (treeAtEnd source)
        ((treeAtEnd source).leafAt? (source.length + dummy.length)) q.force =
          m.proposalsAt ⟨treeAtEnd source, r, q.force⟩ := by
      rw [Manager.available, hresolve]
    rw [Request.complete, h.offset, h.entry, ← havailable]
    rfl

theorem patch_length (source : Bytes) :
    patch source source.length = source ++ (dummy ++ Bytes.ofString ";") := by
  have hblank : Blank.isBlankText (Source.restOfLine source source.length) = true := by
    rw [Source.restOfLine, List.drop_length, List.takeWhile_nil, Blank.isBlankText, Utf8.pieces]
    rfl
  rw [patch, hblank, if_pos rfl, List.take_length, List.drop_length, List.append_nil,
    List.append_assoc]
  rfl

/-- What may stand behind the dot: the beginning of a name that no number goes on with. -/
structure IsOpening (word : Bytes) : Prop where
  bytes : ∀ b ∈ word, Scan.isWordByte b = true
  first : ∀ b ∈ word.head?, Scan.isDigitOrBar b = false ∧
    ∀ c ∈ ['e', 'E', 'f', 'F', 'd', 'D'], b ≠ c.toUInt8

instance (word : Bytes) : Decidable (IsOpening word) :=
  decidable_of_iff ((∀ b ∈ word, Scan.isWordByte b = true) ∧
      ∀ b ∈ word.head?, Scan.isDigitOrBar b = false ∧
        ∀ c ∈ ['e', 'E', 'f', 'F', 'd', 'D'], b ≠ c.toUInt8)
    ⟨fun ⟨bytes, first⟩ => ⟨bytes, first⟩, fun ⟨bytes, first⟩ => ⟨bytes, first⟩⟩

namespace IsOpening

variable {word : Bytes}

/-- What may stand behind the dot is the beginning of a name. -/
theorem isName (h : IsOpening word) : Lexeme.IsName (word ++ dummy) where
  letter := by
    intro b hb
    cases word with
    | nil =>
        rw [List.nil_append] at hb
        exact Token.isLetter_of_mem_dummy b (List.mem_of_mem_head? hb)
    | cons c word =>
        cases hb
        have hword := h.bytes _ List.mem_cons_self
        have hfirst := (h.first _ rfl).1
        simp only [Scan.isWordByte, Scan.isDigitOrBar, Bool.or_eq_true, Bool.or_eq_false_iff]
          at hword hfirst
        exact hword.resolve_right (by simp [hfirst.1])
  word := by
    intro b hb
    rcases List.mem_append.mp hb with hb | hb
    · exact h.bytes b hb
    · simp [Scan.isWordByte, Token.isLetter_of_mem_dummy b hb]
  ordinary := by
    have hlength : dummy.length = 17 := by decide
    refine Scan.ofWord_eq_identifier ?_
    rw [List.length_append]
    omega
  text_ne := List.append_ne_nil_of_right_ne_nil _ (by decide)

theorem head_ne (h : IsOpening word) : ∀ z ∈ (word ++ dummy).head?,
    z ≠ '_'.toUInt8 ∧ ∀ c ∈ Lexeme.fractionMarks, z ≠ c.toUInt8 := by
  intro z hz
  cases word with
  | nil =>
      revert z
      decide
  | cons b word =>
      cases hz
      obtain ⟨hdigit, hmarks⟩ := h.first _ rfl
      refine ⟨?_, fun c hc => ?_⟩
      · rintro rfl
        exact absurd hdigit (by decide)
      · rcases List.mem_cons.mp hc with rfl | hc
        · rintro rfl
          exact absurd (h.bytes _ List.mem_cons_self) (by decide)
        · exact hmarks c hc

end IsOpening

variable {text name digits word : Bytes} {before : List Token} {layers : List Layer}

open Lexeme in
/-- Behind a name and a dot a qualifier is found. -/
theorem resolveAtEnd_qualified (h : DotCompletion.LeadsTo text name before layers)
    (hword : IsOpening word) (force : Bool) :
    ∃ r, resolveAtEnd (text ++ name ++ Bytes.ofString "." ++ word) = .ok r ∧
      r.route = .qualifier ∧ ∃ rest root statement x,
        (Site.mk (treeAtEnd (text ++ name ++ Bytes.ofString "." ++ word)) r force).Ends
            text name rest root statement x layers ∧
          (Site.mk (treeAtEnd (text ++ name ++ Bytes.ofString "." ++ word)) r force).canBeStatement
            r.target = (2 == lastNumber 2 layers) := by
  have hparse := h.parse_qualified hword.isName
  have hpatch : patch (text ++ name ++ Bytes.ofString "." ++ word)
      (text ++ name ++ Bytes.ofString "." ++ word).length =
        text ++ (qualified name (word ++ dummy)).flatMap Lexeme.text := by
    rw [patch_length]
    simp [qualified, closed, sign]
    rfl
  have hrest : text ++ (qualified name (word ++ dummy)).flatMap Lexeme.text =
      text ++ name ++ ((sign .dot).text ++ (word ++ dummy) ++ (sign .semicolon).text) := by
    simp [qualified, closed]
  rw [hrest] at hparse hpatch
  have hlength : dummy.length = 17 := by decide
  have hlo := Lexeme.behind_lo ⟨.identifier, word ++ dummy⟩ (text ++ name ++ (sign .dot).text)
  have hhi := Lexeme.behind_hi ⟨.identifier, word ++ dummy⟩ (text ++ name ++ (sign .dot).text)
  have hdot : (Bytes.ofString ".").length = 1 ∧ (sign .dot).text.length = 1 := by decide
  simp only [List.length_append] at hlo hhi
  obtain ⟨r, hresolve, hroute, statement, x, hends⟩ := Site.Ends.of_selection
    (show treeAtEnd (text ++ name ++ Bytes.ofString "." ++ word) = _ by
      rw [treeAtEnd, Tree.parse, hpatch])
    (Entry.statements.parse_laid _) hparse rfl (Lexeme.behind_lo _ _)
    (by rw [Lexeme.behind_hi, List.length_append]) rfl
    (show _ < (text ++ name ++ Bytes.ofString "." ++ word).length + dummy.length by
      simp only [List.length_append]
      omega)
    (by simp only [List.length_append]; omega) force
  exact ⟨r, hresolve, hroute, _, _, statement, x, hends⟩

open Lexeme in
/-- Behind a number and a dot a broken literal is found. -/
theorem resolveAtEnd_broken (h : DotCompletion.LeadsTo text name before layers) (hne : digits ≠ [])
    (hdigits : ∀ d ∈ digits, Scan.isDigit d = true) (hword : IsOpening word) (force : Bool) :
    ∃ r, resolveAtEnd (text ++ digits ++ Bytes.ofString "." ++ word) = .ok r ∧
      r.route = .brokenLiteral ∧ ∃ rest root statement x,
        (Site.mk (treeAtEnd (text ++ digits ++ Bytes.ofString "." ++ word)) r force).Ends
            text digits rest root statement x layers ∧
          (Site.mk (treeAtEnd (text ++ digits ++ Bytes.ofString "." ++ word)) r force).canBeStatement
            r.target = (2 == lastNumber 2 layers) := by
  obtain ⟨p, d, hparse⟩ := h.parse_broken hne hdigits hword.isName hword.head_ne
  have hpatch : patch (text ++ digits ++ Bytes.ofString "." ++ word)
      (text ++ digits ++ Bytes.ofString "." ++ word).length =
        text ++ (broken digits (word ++ dummy)).flatMap Lexeme.text := by
    rw [patch_length]
    simp [broken, closed, sign]
    rfl
  have hrest : text ++ (broken digits (word ++ dummy)).flatMap Lexeme.text =
      text ++ digits ++ (['.'.toUInt8] ++ (word ++ dummy) ++ (sign .semicolon).text) := by
    simp [broken, closed]
  rw [hrest] at hparse hpatch
  have hlength : dummy.length = 17 := by decide
  have hlo := Lexeme.behind_lo ⟨.identifier, word ++ dummy⟩ (text ++ (digits ++ ['.'.toUInt8]))
  have hhi := Lexeme.behind_hi ⟨.identifier, word ++ dummy⟩ (text ++ (digits ++ ['.'.toUInt8]))
  have hdot : (Bytes.ofString ".").length = 1 ∧ ['.'.toUInt8].length = 1 := by decide
  simp only [List.length_append] at hlo hhi
  obtain ⟨r, hresolve, hroute, statement, x, hends⟩ := Site.Ends.of_number
    (show treeAtEnd (text ++ digits ++ Bytes.ofString "." ++ word) = _ by
      rw [treeAtEnd, Tree.parse, hpatch])
    (Entry.statements.parse_laid _) hparse rfl (by simp [Bytes.endsWith, behind, place])
    (Lexeme.behind_lo _ _)
    (by rw [Lexeme.behind_hi]; simp only [List.length_append]; omega) rfl
    (show _ < (text ++ digits ++ Bytes.ofString "." ++ word).length + dummy.length by
      simp only [List.length_append]
      omega)
    (by simp only [List.length_append]; omega) force
  exact ⟨r, hresolve, hroute, _, _, statement, x, hends⟩

/-- Digits in place of the last word of a statement make no difference to the candidates,
but for the word itself. -/
theorem candidates_agree {q q' : Request} (h : EndsPlainly text name) (hne : digits ≠ [])
    (hdigits : ∀ d ∈ digits, Scan.isDigit d = true) (hword : IsOpening word)
    (hq : q.AtEnd (text ++ name ++ Bytes.ofString "." ++ word))
    (hq' : q'.AtEnd (text ++ digits ++ Bytes.ofString "." ++ word)) :
    ∃ s s' : Site, q.LeadsTo (text ++ name ++ Bytes.ofString "." ++ word) s ∧
      q'.LeadsTo (text ++ digits ++ Bytes.ofString "." ++ word) s' ∧
      s.resolution.route = .qualifier ∧ s'.resolution.route = .brokenLiteral ∧
      List.Forall₂ (Candidate.Agree name digits) s.candidates s'.candidates := by
  obtain ⟨before, layers, hleads⟩ := h.exists_leadsTo
  obtain ⟨r, hresolve, hroute, _, _, _, _, hends, hcan⟩ :=
    resolveAtEnd_qualified hleads hword q.force
  obtain ⟨r', hresolve', hroute', _, _, _, _, hends', hcan'⟩ :=
    resolveAtEnd_broken hleads hne hdigits hword q'.force
  exact ⟨_, _, hq.leadsTo hresolve, hq'.leadsTo hresolve', hroute, hroute',
    hends.agree hends' (hcan.trans hcan'.symm)⟩

theorem candidates_agree_behind_sum :
    ∃ s s' : Site,
      (Request.mk .statements 1 9 true).LeadsTo (Bytes.ofString "a + b.if") s ∧
      (Request.mk .statements 1 10 true).LeadsTo (Bytes.ofString "a + 10.if") s' ∧
      s.resolution.route = .qualifier ∧ s'.resolution.route = .brokenLiteral ∧
      List.Forall₂ (Candidate.Agree (Bytes.ofString "b") (Bytes.ofString "10"))
        s.candidates s'.candidates := by
  have hplain : EndsPlainly (Bytes.ofString "a + ") (Bytes.ofString "b") :=
    .of_check (by decide +kernel)
  have hword : IsOpening (Bytes.ofString "if") := by decide +kernel
  have hq : (Request.mk .statements 1 9 true).AtEnd (Bytes.ofString "a + " ++
      Bytes.ofString "b" ++ Bytes.ofString "." ++ Bytes.ofString "if") := ⟨rfl, by decide +kernel⟩
  have hq' : (Request.mk .statements 1 10 true).AtEnd (Bytes.ofString "a + " ++
      Bytes.ofString "10" ++ Bytes.ofString "." ++ Bytes.ofString "if") := ⟨rfl, by decide +kernel⟩
  exact candidates_agree hplain (by decide +kernel) (by decide +kernel) hword hq hq'

end Request

end DotCompletion
