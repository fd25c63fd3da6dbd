import DotCompletion.Proofs.Completion.NameAlone

/-!
# Down the right edge

A number that swallowed a dot stands at the right edge of an expression. The search for it goes
down along the links of the table: from a node to its last child or, if that is no expression,
to the nearest expression in front of it. On the way down the numbers of the nodes increase, so
the search ends. It meets the nodes of the right edge, where each node is the last expression
among the children of the one before it, and it ends at the first broken number among them
(`Tree.ofNode_searches`).
-/

namespace DotCompletion

namespace Tree

variable {t : Tree} {id c : Nat} {path visited : List Nat} {result : Option Nat}

/-! ## The edge and the search -/

/-- `c` is the last one among the children that are expressions. -/
def IsLastExpression (t : Tree) (id c : Nat) : Prop :=
  ∃ front back, t.children id = front ++ c :: back ∧ t.isExpression c = true ∧
    ∀ b ∈ back, t.isExpression b = false

/-- The way down from a node that goes on to the last expression among the children as long as
there is one. -/
inductive RightEdge (t : Tree) : Nat → List Nat → Prop
  | stop {id : Nat} (h : ∀ b ∈ t.children id, t.isExpression b = false) : RightEdge t id [id]
  | down {id c : Nat} {path : List Nat} (h : t.IsLastExpression id c)
      (hpath : RightEdge t c path) : RightEdge t id (id :: path)

/-- A number with a fraction or an exponent whose text ends in a dot, as in `0.`. -/
def EndsInDot (t : Tree) (id : Nat) : Prop :=
  t.kind? id = some .literal ∧ ∃ tok digits, t.token? id = some tok ∧
    tok.kind = .floatLiteral ∧ tok.literal = digits ++ ['.'.toUInt8]

/-- Where the search goes from a node along the links: to the last child if that is an
expression, and else to the nearest expression in front of it. -/
def descend? (t : Tree) (id : Nat) : Option Nat :=
  (t.lastChild? id).bind fun last =>
    if t.isExpression last then some last else t.previousOf? NodeKind.isExpression last

/-- The search from a node on, with the nodes that it looks at and what it finds. -/
inductive Search (t : Tree) : Option Nat → List Nat → Option Nat → Prop
  | out : Search t none [] none
  | found {id : Nat} (h : t.isBrokenLiteral id = true) : Search t (some id) [id] (some id)
  | down {id : Nat} {visited : List Nat} {result : Option Nat} (h : t.isBrokenLiteral id = false)
      (hrest : Search t (t.descend? id) visited result) :
      Search t (some id) (id :: visited) result

/-- A search has one course. -/
theorem Search.unique {start : Option Nat} {visited' : List Nat} {result' : Option Nat}
    (h : t.Search start visited result) (h' : t.Search start visited' result') :
    visited = visited' ∧ result = result' := by
  induction h generalizing visited' with
  | out =>
      cases h'
      exact ⟨rfl, rfl⟩
  | found hbroken =>
      cases h' with
      | found => exact ⟨rfl, rfl⟩
      | down hnot => cases hbroken.symm.trans hnot
  | down hnot _ ih =>
      cases h' with
      | found hbroken => cases hbroken.symm.trans hnot
      | down _ hrest =>
          obtain ⟨rfl, hresult⟩ := ih hrest
          exact ⟨rfl, hresult⟩

theorem isBrokenLiteral_iff : t.isBrokenLiteral id = true ↔ t.EndsInDot id := by
  rw [EndsInDot, isBrokenLiteral, Bool.and_eq_true, isA, hasKind]
  cases t.kind? id <;> cases t.token? id <;> simp [Bytes.endsWith, List.getLast?_eq_some_iff]

/-! ## One step -/

theorem lastExpression?_eq_some_iff : t.lastExpression? id = some c ↔ t.IsLastExpression id c := by
  rw [lastExpression?, List.find?_eq_some_iff_append]
  constructor
  · rintro ⟨hc, back, front, hreverse, hback⟩
    rw [List.reverse_eq_iff, List.reverse_append, List.reverse_cons, List.append_assoc,
      List.singleton_append] at hreverse
    exact ⟨_, _, hreverse, hc, by simpa using hback⟩
  · rintro ⟨front, back, hchildren, hc, hback⟩
    refine ⟨hc, back.reverse, front.reverse, ?_, by simpa using hback⟩
    rw [hchildren, List.reverse_append, List.reverse_cons, List.append_assoc,
      List.singleton_append]

theorem lastExpression?_eq_none_iff :
    t.lastExpression? id = none ↔ ∀ b ∈ t.children id, t.isExpression b = false := by
  simp [lastExpression?]

section

variable {source : Bytes} {root : Node}

/-- The links lead to the last expression among the children. -/
theorem descend?_eq (source : Bytes) (root : Node) (id : Nat) :
    (ofNode source (some root)).descend? id = (ofNode source (some root)).lastExpression? id := by
  rw [descend?, lastExpression?, ← getLast?_children]
  rcases List.eq_nil_or_concat ((ofNode source (some root)).children id) with
    hnil | ⟨front, last, hlast⟩
  · rw [hnil]
    rfl
  · rw [List.concat_eq_append] at hlast
    rw [hlast, List.getLast?_concat, Option.bind_some, List.reverse_concat, List.find?_cons,
      previousOf?, before_of_children hlast]
    cases (ofNode source (some root)).isExpression last <;> rfl

theorem lt_of_isLastExpression (h : (ofNode source (some root)).IsLastExpression id c) :
    id < c ∧ c < root.size := by
  obtain ⟨front, back, hchildren, -, -⟩ := h
  have hmem : c ∈ (ofNode source (some root)).children id := by simp [hchildren]
  obtain ⟨n, above, hn⟩ := exists_of_mem_children hmem
  obtain ⟨row, m, -, -, rfl, hm⟩ := exists_child hn hmem
  exact ⟨by omega, hm.lt_size⟩

/-! ## The whole way -/

/-- By induction on the numbers that are left: each step leads to a larger one. -/
theorem exists_rightEdge (source : Bytes) (root : Node) (id : Nat) :
    ∃ path, (ofNode source (some root)).RightEdge id path := by
  induction hleft : root.size - id using Nat.strongRecOn generalizing id with
  | ind left ih =>
      cases hlast : (ofNode source (some root)).lastExpression? id with
      | none => exact ⟨[id], .stop (lastExpression?_eq_none_iff.mp hlast)⟩
      | some c =>
          rw [lastExpression?_eq_some_iff] at hlast
          obtain ⟨hlt, hsize⟩ := lt_of_isLastExpression hlast
          obtain ⟨path, hpath⟩ := ih (root.size - c) (by omega) c rfl
          exact ⟨id :: path, .down hlast hpath⟩

theorem RightEdge.increasing (h : (ofNode source (some root)).RightEdge id path) :
    path.Pairwise (· < ·) ∧ ∀ b ∈ path, id ≤ b := by
  induction h with
  | stop => simp
  | down hlast _ ih =>
      obtain ⟨hpath, hle⟩ := ih
      have hlt := (lt_of_isLastExpression hlast).1
      have habove := fun b hb => Nat.lt_of_lt_of_le hlt (hle b hb)
      refine ⟨.cons habove hpath, ?_⟩
      simpa using fun b hb => Nat.le_of_lt (habove b hb)

/-- The way down is no longer than the table. -/
theorem RightEdge.length_le (h : (ofNode source (some root)).RightEdge id path) :
    path.length ≤ (ofNode source (some root)).size := by
  have hends : path.length = 1 ∨ id + path.length ≤ root.size := by
    induction h with
    | stop => exact .inl rfl
    | @down id c path hlast _ ih =>
        obtain ⟨hlt, hsize⟩ := lt_of_isLastExpression hlast
        rw [List.length_cons]
        omega
  have hpos := root.size_pos
  rw [size_ofNode]
  omega

end

/-- With levels enough the first broken number on the way down is found. -/
theorem RightEdge.brokenLiteralBelow?_eq (h : t.RightEdge id path) {levels : Nat}
    (hlevels : path.length ≤ levels) :
    t.brokenLiteralBelow? levels id = path.find? t.isBrokenLiteral := by
  induction h generalizing levels with
  | stop hnone =>
      obtain ⟨levels, rfl⟩ := Nat.exists_eq_succ_of_ne_zero (Nat.ne_zero_of_lt hlevels)
      rw [brokenLiteralBelow?, lastExpression?_eq_none_iff.mpr hnone, List.find?_singleton]
      rfl
  | down hlast _ ih =>
      obtain ⟨levels, rfl⟩ := Nat.exists_eq_succ_of_ne_zero (Nat.ne_zero_of_lt hlevels)
      rw [brokenLiteralBelow?, lastExpression?_eq_some_iff.mpr hlast, Option.bind_some,
        ih (Nat.le_of_succ_le_succ hlevels), List.find?_cons]
      cases t.isBrokenLiteral _ <;> rfl

theorem RightEdge.unique {path' : List Nat} (h : t.RightEdge id path) (h' : t.RightEdge id path') :
    path = path' := by
  induction h generalizing path' with
  | stop hnone =>
      rw [← lastExpression?_eq_none_iff] at hnone
      cases h' with
      | stop => rfl
      | down hlast => cases hnone.symm.trans (lastExpression?_eq_some_iff.mpr hlast)
  | down hlast _ ih =>
      rw [← lastExpression?_eq_some_iff] at hlast
      cases h' with
      | stop hnone => cases hlast.symm.trans (lastExpression?_eq_none_iff.mpr hnone)
      | down hlast' hpath' =>
          cases hlast.symm.trans (lastExpression?_eq_some_iff.mpr hlast')
          rw [ih hpath']

section

variable {source : Bytes} {root : Node}

/-- The search looks at the nodes of the way down, up to the first broken number. -/
theorem RightEdge.search (h : (ofNode source (some root)).RightEdge id path) :
    ∃ visited, visited <+: path ∧ (ofNode source (some root)).Search (some id) visited
      (path.find? (ofNode source (some root)).isBrokenLiteral) := by
  induction h with
  | @stop id hnone =>
      cases hbroken : (ofNode source (some root)).isBrokenLiteral id with
      | true =>
          rw [List.find?_cons_of_pos hbroken]
          exact ⟨[id], List.prefix_rfl, .found hbroken⟩
      | false =>
          have hout : (ofNode source (some root)).descend? id = none := by
            rw [descend?_eq, lastExpression?_eq_none_iff.mpr hnone]
          rw [List.find?_cons_of_neg (by simp [hbroken])]
          exact ⟨[id], List.prefix_rfl, .down hbroken (hout ▸ .out)⟩
  | @down id c path hlast _ ih =>
      cases hbroken : (ofNode source (some root)).isBrokenLiteral id with
      | true =>
          rw [List.find?_cons_of_pos hbroken]
          exact ⟨[id], List.prefix_append [id] path, .found hbroken⟩
      | false =>
          obtain ⟨visited, hprefix, hsearch⟩ := ih
          have hdown : (ofNode source (some root)).descend? id = some c := by
            rw [descend?_eq, lastExpression?_eq_some_iff.mpr hlast]
          rw [List.find?_cons_of_neg (by simp [hbroken])]
          exact ⟨id :: visited, (List.prefix_cons_inj id).mpr hprefix,
            .down hbroken (hdown ▸ hsearch)⟩

/-! ## The target -/

/-- A sibling in front has its number, and those of all nodes below it, in front. -/
theorem add_sizeAt_le_of_previousOf? {p : NodeKind → Bool} {b : Nat}
    (h : (ofNode source (some root)).previousOf? p c = some b) : b + root.sizeAt b ≤ c := by
  have hmem : b ∈ (ofNode source (some root)).before c := List.mem_of_find?_eq_some h
  obtain ⟨n, above, hn⟩ | houtside := numbered_or_outside root c
  · cases hn with
    | root =>
        rw [before, previous?_root, follow_none] at hmem
        cases hmem
    | child hparent hsplit =>
        rw [before_eq hparent hsplit, List.mem_reverse] at hmem
        obtain ⟨row, m, rest, rfl, rfl⟩ := Node.mem_numbers hmem
        have hm := hparent.child (hsplit.trans (List.append_assoc _ _ _))
        rw [hm.sizeAt, Node.sizeAll_append, Node.sizeAll_cons]
        omega
  · rw [before, previous?, slot?_eq_none houtside, Option.bind_none, follow_none] at hmem
    cases hmem

theorem lt_of_ancestor? {p : NodeKind → Bool} {outer : Nat}
    (h : (ofNode source (some root)).ancestor? p id = some outer) : outer < id := by
  have hmem := List.mem_of_find?_eq_some h
  exact (isAncestor_iff.mp (List.contains_iff_mem.mpr hmem)).1

/-- What is found from an expression on is the expression or a node below it. -/
theorem eq_or_isAncestor_of_brokenLiteral? {expression target : Nat}
    (hexpression : (ofNode source (some root)).isExpression expression = true)
    (h : (ofNode source (some root)).brokenLiteral? expression = some target) :
    target = expression ∨ (ofNode source (some root)).isAncestor expression target = true := by
  obtain ⟨n, above, hn, -⟩ := exists_of_hasKind hexpression
  obtain ⟨m, above', inner, _, hm, hpath, -⟩ := exists_brokenLiteral hn h
  cases inner with
  | nil =>
      cases hpath
      exact .inl rfl
  | cons _ inner =>
      obtain ⟨-, rfl⟩ := List.cons.inj hpath
      right
      rw [isAncestor, ancestors_eq hm, List.contains_iff_mem]
      simp

/-- What the search does from a node on. -/
structure Searches (t : Tree) (id : Nat) (path visited : List Nat) : Prop where
  edge : t.RightEdge id path
  edge_unique : ∀ path', t.RightEdge id path' → path' = path
  increasing : path.Pairwise (· < ·)
  /-- The search ends, and it has one course. -/
  ends : t.Search (some id) visited (t.brokenLiteral? id)
  ends_unique : ∀ visited' result, t.Search (some id) visited' result →
    visited' = visited ∧ result = t.brokenLiteral? id
  /-- It looks at nodes of the right edge in their order. -/
  visited_prefix : visited <+: path
  /-- It finds the first broken number of the right edge. -/
  found_iff : ∀ target, t.brokenLiteral? id = some target ↔ ∃ front back,
    path = front ++ target :: back ∧ t.EndsInDot target ∧ ∀ b ∈ front, ¬t.EndsInDot b

theorem exists_searches (source : Bytes) (root : Node) (id : Nat) :
    ∃ path visited, (ofNode source (some root)).Searches id path visited := by
  obtain ⟨path, hpath⟩ := exists_rightEdge source root id
  obtain ⟨visited, hprefix, hsearch⟩ := hpath.search
  have hfound : (ofNode source (some root)).brokenLiteral? id =
      path.find? (ofNode source (some root)).isBrokenLiteral :=
    hpath.brokenLiteralBelow?_eq hpath.length_le
  rw [← hfound] at hsearch
  refine ⟨path, visited, hpath, fun path' h => h.unique hpath, hpath.increasing.1, hsearch,
    fun visited' result h => h.unique hsearch, hprefix, fun target => ?_⟩
  rw [hfound, List.find?_eq_some_iff_append]
  simp only [← isBrokenLiteral_iff, Bool.not_eq_true, Bool.not_eq_true']
  constructor
  · rintro ⟨htarget, front, back, hsplit, hfront⟩
    exact ⟨front, back, hsplit, htarget, hfront⟩
  · rintro ⟨front, back, hsplit, htarget, hfront⟩
    exact ⟨htarget, front, back, hsplit, hfront⟩

/-- In a table without nodes the search ends where it begins. -/
theorem searches_ofNode_none (source : Bytes) (id : Nat) :
    (ofNode source none).Searches id [id] [id] := by
  have hedge : (ofNode source none).RightEdge id [id] := .stop (List.forall_mem_nil _)
  have hsearch : (ofNode source none).Search (some id) [id] none := .down rfl .out
  refine ⟨hedge, fun path' h => h.unique hedge, List.pairwise_singleton _ _, hsearch,
    fun visited' result h => h.unique hsearch, List.prefix_rfl, fun target => ⟨?_, ?_⟩⟩
  · rintro ⟨⟩
  · rintro ⟨-, -, -, htarget, -⟩
    cases isBrokenLiteral_iff.mpr htarget

/-- The target behind a broken number is the first child of the statement in front, or lies below
it, and has a smaller number than the reference. -/
theorem target_of_brokenLiteral {cursor : Option Nat} {r : Resolution}
    (h : (ofNode source (some root)).resolve cursor = .ok r) (hroute : r.route = .brokenLiteral) :
    ∃ statement previous expression,
      (ofNode source (some root)).Follows r.reference expression statement previous ∧
      (ofNode source (some root)).brokenLiteral? expression = some r.target ∧
      (r.target = expression ∨
        (ofNode source (some root)).isAncestor expression r.target = true) ∧
      r.target < r.reference := by
  obtain ⟨_, -, -, -, hcase⟩ := resolve_eq_ok h
  obtain ⟨-, hrecovers⟩ := hcase.resolve_left fun hqualifier => by
    cases hroute.symm.trans hqualifier.1
  obtain ⟨statement, previous, expression, hfollows, hfound⟩ := hrecovers.found
  obtain ⟨_, _, hholds, hbefore, -, hinside⟩ := hrecovers.exists_statements
  cases hfollows.holds.symm.trans hholds
  cases hfollows.before.symm.trans hbefore
  -- the target is in the statement in front, and the reference behind that statement
  have hahead := (isAncestor_iff.mp hinside).2
  have hends := add_sizeAt_le_of_previousOf? hbefore
  have hbelow := lt_of_ancestor? hholds
  exact ⟨statement, previous, expression, hfollows, hfound,
    eq_or_isAncestor_of_brokenLiteral? hfollows.isExpression hfound, by omega⟩

/-- The search down the right edge ends in every table and from every node of it, at the first
broken number if there is one. So what it finds for a name that stands alone is the expression of
the statement in front, or lies below it, and has a smaller number than the reference. -/
theorem ofNode_searches (source : Bytes) (root : Option Node) :
    (∀ id, ∃ path visited, (ofNode source root).Searches id path visited) ∧
    ∀ cursor r, (ofNode source root).resolve cursor = .ok r → r.route = .brokenLiteral →
      ∃ statement previous expression,
        (ofNode source root).Follows r.reference expression statement previous ∧
        (ofNode source root).brokenLiteral? expression = some r.target ∧
        (r.target = expression ∨ (ofNode source root).isAncestor expression r.target = true) ∧
        r.target < r.reference := by
  cases root with
  | none =>
      refine ⟨fun id => ⟨[id], [id], searches_ofNode_none source id⟩, fun cursor r h _ => ?_⟩
      cases cursor <;> cases h
  | some root => exact ⟨exists_searches source root, fun cursor r => target_of_brokenLiteral⟩

/-- The search goes down past the comparison to the number at its end. -/
theorem target_in_comparison :
    (parse .statements (Bytes.ofString "x >\n0.abc;")).resolve (some 12) =
        .ok ⟨.brokenLiteral, 10, 7⟩ ∧
      ∃ statement previous e,
        (parse .statements (Bytes.ofString "x >\n0.abc;")).Follows 10 e statement previous ∧
        (parse .statements (Bytes.ofString "x >\n0.abc;")).brokenLiteral? e = some 7 ∧
        (7 = e ∨ (parse .statements (Bytes.ofString "x >\n0.abc;")).isAncestor e 7 = true) ∧
        7 < 10 := by
  have hresolve : (parse .statements (Bytes.ofString "x >\n0.abc;")).resolve (some 12) =
      .ok ⟨.brokenLiteral, 10, 7⟩ := by decide +kernel
  exact ⟨hresolve, (ofNode_searches _ (some _)).2 _ _ hresolve rfl⟩

end

end Tree

end DotCompletion
