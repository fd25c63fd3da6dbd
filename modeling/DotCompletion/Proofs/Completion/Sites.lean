import Mathlib.Data.List.TakeWhile
import DotCompletion.Completion.Candidate
import DotCompletion.Proofs.Completion.Resolving
import DotCompletion.Proofs.Tree.Spine

/-!
# Sites and the tree around them

Where the nodes around a name lie as they should, a template is found for the name. The
candidates of a site are the target and the operations around it, and each of them reads
the same but for its end.
-/

namespace DotCompletion

open Node (Numbered)

namespace Tree

variable {source : Bytes} {root n x : Node} {id cursor reference : Nat}
  {above : List (Nat × Node)}

theorem resolve_eq (hn : Numbered root cursor n ((reference, x) :: above))
    (hkind : n.kind = .identifier) (hx : x.kind = .referenceExpr) :
    (ofNode source (some root)).resolve (some cursor) =
      match (ofNode source (some root)).qualifier? reference with
      | some target => .ok ⟨.qualifier, reference, target⟩
      | none => (ofNode source (some root)).resolveBroken reference := by
  have hcursor : (ofNode source (some root)).isA .identifier cursor = true := by
    rw [isA_eq hn, hkind]
    rfl
  have hreference : (ofNode source (some root)).ancestor? (· == .referenceExpr) cursor =
      some reference :=
    ancestor?_of_above (show Numbered root cursor n ([] ++ _) from hn) nofun (by rw [hx]; rfl)
  simp only [resolve, Option.filter_some, hcursor, if_true, hreference]
  rfl

theorem qualifier?_eq (hx : Numbered root reference x above) {q : Node} {back : List Node}
    (hchildren : x.children = q :: back) :
    (ofNode source (some root)).qualifier? reference =
      if q.kind.isExpression then some (reference + 1) else none := by
  have hq : Numbered root (reference + 1) q ((reference, x) :: above) :=
    .child hx (show x.children = [] ++ q :: back from hchildren)
  rw [qualifier?, firstChild?_eq hx hchildren, Option.filter_some, isExpression, hasKind_eq hq]

/-- In front of the statement of a name stands an expression without a semicolon. -/
theorem follows_of_children {p statement first e missing : Node} {k : Nat}
    (hx : Numbered root reference x
      ((k + 1 + Node.sizeAll [first], statement) :: (k, p) :: above))
    (hstatement : statement.kind = .exprStmt) (hp : p.children = [first, statement])
    (hfirst : first.kind = .exprStmt) (hchildren : first.children = [e, missing])
    (he : e.kind.isExpression = true) (hmissing : missing.kind = .error) :
    (ofNode source (some root)).Follows reference (k + 2) (k + 1 + Node.sizeAll [first])
      (k + 1) := by
  have hpnode := hx.parent.parent
  have hfirstNode : Numbered root (k + 1) first ((k, p) :: above) :=
    .child hpnode (show p.children = [] ++ first :: [statement] from hp)
  have heNode : Numbered root (k + 2) e ((k + 1, first) :: (k, p) :: above) :=
    .child hfirstNode (show first.children = [] ++ e :: [missing] from hchildren)
  have hmissingSplit : first.children = [e] ++ missing :: [] := hchildren
  refine
    { holds := ancestor?_of_above (show Numbered root reference x ([] ++ _) from hx) nofun
        (by rw [hstatement]; rfl)
      before := ?_
      isStatement := by rw [isA, hasKind_eq hfirstNode, hfirst]; rfl
      first := firstChild?_eq hfirstNode hchildren
      isExpression := by rw [Tree.isExpression, hasKind_eq heNode, he]
      open_end := ⟨_, lastChild?_eq hfirstNode hmissingSplit, ?_, ?_⟩ }
  · rw [previousOf?, before_eq hpnode (show p.children = [first] ++ statement :: [] from hp)]
    refine List.find?_cons_of_pos ?_
    rw [hasKind_eq hfirstNode, hfirst]
    rfl
  · rw [isA, hasKind_eq (.child hfirstNode hmissingSplit), hmissing]
    rfl
  · rw [previous?_eq hfirstNode hmissingSplit]
    rfl

theorem isBare_of_children (hx : Numbered root reference x above) {list name : Node}
    (hchildren : x.children = [list, name]) (hlist : list.kind = .referenceParameterList) :
    (ofNode source (some root)).isBare reference = true := by
  have hlistNode : Numbered root (reference + 1) list ((reference, x) :: above) :=
    .child hx (show x.children = [] ++ list :: [name] from hchildren)
  rw [isBare, firstChild?_eq hx hchildren, children_eq hx, hchildren, Option.map_some, isA,
    hasKind_eq hlistNode, hlist]
  rfl

theorem lastExpression?_wrap {l : Layer} (h : Numbered root id (l.wrap x) above)
    (hx : x.kind.isExpression = true) :
    (ofNode source (some root)).lastExpression? id = some (id + 1 + Node.sizeAll l.front) := by
  have hxNode := Numbered.child h (show (l.wrap x).children = l.front ++ x :: [] from rfl)
  have hnumbers : Node.numbers (id + 1) (l.wrap x).children =
      Node.numbers (id + 1) l.front ++ [id + 1 + Node.sizeAll l.front] :=
    Node.numbers_append _ _ _
  rw [lastExpression?, children_eq h, hnumbers, List.reverse_concat, List.find?_cons_of_pos]
  rw [isExpression, hasKind_eq hxNode, hx]

/-- The number at the end of an expression is found through all operations around it. -/
theorem brokenLiteralBelow?_wrapped {layers : List Layer} {levels : Nat}
    (h : Numbered root id (x.wrapped layers) above) (hx : x.kind = .literal) {t : Token}
    (htoken : x.token = some t) (hkind : t.kind = .floatLiteral)
    (hdot : Bytes.endsWith '.' t.literal = true) (hlevels : layers.length < levels) :
    (ofNode source (some root)).brokenLiteralBelow? levels id =
      some (Layer.lastNumber id layers) := by
  induction layers generalizing id levels above with
  | nil =>
      obtain ⟨levels, rfl⟩ := Nat.exists_eq_add_of_lt hlevels
      have hxNode : Numbered root id x above := h
      have hbroken : (ofNode source (some root)).isBrokenLiteral id = true := by
        rw [isBrokenLiteral, isA, hasKind_eq hxNode, token?_eq hxNode, hx, htoken, Option.map_some,
          hkind, hdot]
        rfl
      rw [brokenLiteralBelow?, hbroken]
      rfl
  | cons l layers ih =>
      obtain ⟨levels, rfl⟩ := Nat.exists_eq_succ_of_ne_zero (Nat.ne_zero_of_lt hlevels)
      have hkinds : ∀ k ∈ NodeKind.operations, (k == .literal) = false := by decide
      have hunbroken : (ofNode source (some root)).isBrokenLiteral id = false := by
        rw [isBrokenLiteral, isA, hasKind_eq h]
        exact (congrArg (· && _) (hkinds _ l.operation)).trans (Bool.false_and _)
      have hinner := Numbered.child h
        (show (l.wrap (x.wrapped layers)).children = l.front ++ x.wrapped layers :: [] from rfl)
      rw [brokenLiteralBelow?, hunbroken,
        lastExpression?_wrap h (Node.isExpression_wrapped layers (by rw [hx]; rfl))]
      exact ih hinner (Nat.lt_of_succ_lt_succ hlevels)

theorem brokenLiteral?_wrapped {layers : List Layer}
    (h : Numbered root id (x.wrapped layers) above) (hx : x.kind = .literal) {t : Token}
    (htoken : x.token = some t) (hkind : t.kind = .floatLiteral)
    (hdot : Bytes.endsWith '.' t.literal = true) :
    (ofNode source (some root)).brokenLiteral? id = some (Layer.lastNumber id layers) := by
  refine brokenLiteralBelow?_wrapped h hx htoken hkind hdot ?_
  have hlt := h.wrapped.lt_size
  have hle := Layer.le_lastNumber id layers
  rw [size_ofNode]
  omega

end Tree

/-! ## Candidates -/

namespace Site

variable {s : Site} {source : Bytes} {root n : Node} {id : Nat} {above : List (Nat × Node)}

theorem spanOf_eq (htree : s.tree = .ofNode source (some root)) (hn : Numbered root id n above) :
    s.spanOf id = n.span := by
  rw [spanOf, htree, Tree.span?_eq hn]
  rfl

theorem ends_of_qualifier {q : Node} {above' : List (Nat × Node)}
    (htree : s.tree = .ofNode source (some root)) (hroute : s.resolution.route = .qualifier)
    (hn : Numbered root s.reference n above) (hq : Numbered root s.target q above') :
    s.stop = n.hi ∧ s.contentEnd.offset = q.hi := by
  have hrecovered : s.recovered = false := by rw [recovered, hroute]; rfl
  rw [stop, contentEnd, hrecovered, spanOf_eq htree hq]
  exact ⟨congrArg (fun span : Span => span.stop.offset) (spanOf_eq htree hn), rfl⟩

theorem ends_of_brokenLiteral (htree : s.tree = .ofNode source (some root))
    (hroute : s.resolution.route = .brokenLiteral) (hn : Numbered root s.target n above) :
    s.stop = n.hi ∧ s.contentEnd.offset = n.hi - 1 := by
  have hrecovered : s.recovered = true := by rw [recovered, hroute]; rfl
  rw [stop, contentEnd, hrecovered, spanOf_eq htree hn]
  exact ⟨congrArg (fun span : Span => span.stop.offset) (spanOf_eq htree hn), rfl⟩

/-- The text of a candidate goes on from where it begins up to the end of the word. -/
theorem text_candidate {text word rest : Bytes}
    (htree : s.tree = .ofNode (text ++ word ++ rest) (some root)) (hn : Numbered root id n above)
    (hlo : n.lo ≤ text.length) (hend : s.contentEnd.offset = (text ++ word).length) :
    (s.candidate id).text = text.drop n.lo ++ word := by
  have hsource : s.tree.source = text ++ word ++ rest := by rw [htree]; rfl
  have hlength := @List.length_append _ text word
  have hstart : (s.spanOf id).start.offset = n.lo := by rw [spanOf_eq htree hn]; rfl
  rw [candidate]
  simp only
  rw [Tree.textBetween, hend, hsource, hstart, if_pos]
  · rw [Int.toNat_natCast, Int.toNat_natCast, Bytes.slice, List.take_left,
      List.drop_append_of_le_length hlo]
  · simp only [List.length_append]
    omega

/-- A candidate can be a statement where it is the expression of its statement, or where
the reference behind it is. -/
theorem canBeStatement_eq (htree : s.tree = .ofNode source (some root)) {statement e : Node}
    {k : Nat} {back : List Node} {inner : List (Nat × Node)}
    (hn : Numbered root id n (inner ++ (k, statement) :: above))
    (hinner : ∀ a ∈ inner, a.2.kind.isStatement = false) (hstatement : statement.kind = .exprStmt)
    (hchildren : statement.children = e :: back) (he : e.kind.isExpression = true) :
    s.canBeStatement id =
      (k + 1 == id || (k + 1 == s.reference && s.tree.firstChild? s.reference == some id)) := by
  have hstatementNode := hn.outer rfl
  have heNode : Numbered root (k + 1) e ((k, statement) :: above) :=
    .child hstatementNode (show statement.children = [] ++ e :: back from hchildren)
  have hancestor : s.tree.ancestor? NodeKind.isStatement id = some k := by
    rw [htree]
    exact Tree.ancestor?_of_above hn hinner (by rw [hstatement]; rfl)
  have hisA : s.tree.isA .exprStmt k = true := by
    rw [htree, Tree.isA, Tree.hasKind_eq hstatementNode, hstatement]
    rfl
  have htop : s.tree.firstOfKind? NodeKind.expressions k = some (k + 1) := by
    rw [htree, Tree.firstOfKind?, Tree.children_eq hstatementNode, hchildren]
    refine List.find?_cons_of_pos ?_
    rw [Tree.hasKind_eq heNode]
    exact he
  rw [canBeStatement, hancestor, Option.filter_some, hisA]
  simp [htop]

/-- The nodes around the target that are candidates. -/
theorem outer_eq {front ids back : List Nat} {k : Nat}
    (hancestors : s.tree.ancestors s.target = front ++ ids ++ k :: back)
    (hfront : ∀ i ∈ front, s.tree.isExpression i = true ∧ i = s.reference)
    (hids : ∀ i ∈ ids, s.tree.isExpression i = true ∧ i ≠ s.reference ∧
      (s.spanOf i).stop.offset = s.stop)
    (hk : s.tree.isExpression k = false) : s.outer = ids := by
  have hexpressions : ∀ i ∈ front ++ ids, s.tree.isExpression i = true := by
    intro i hi
    rcases List.mem_append.mp hi with hi | hi
    · exact (hfront i hi).1
    · exact (hids i hi).1
  have hnone : front.filter (· != s.reference) = [] := by
    rw [List.filter_eq_nil_iff]
    intro i hi
    simp [(hfront i hi).2]
  have hall : ids.filter (· != s.reference) = ids :=
    List.filter_eq_self.mpr fun i hi => by simpa using (hids i hi).2.1
  rw [outer, hancestors, List.takeWhile_append_of_pos hexpressions, List.takeWhile_cons, hk]
  simp only [Bool.false_eq_true, if_false, List.append_nil, List.filter_append, hnone, hall,
    List.nil_append]
  exact List.takeWhile_eq_self_iff.mpr fun i hi => by simpa using (hids i hi).2.2

end Site

end DotCompletion
