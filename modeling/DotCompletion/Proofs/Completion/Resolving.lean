import DotCompletion.Completion.Resolution
import DotCompletion.Proofs.Grammar.Layout
import DotCompletion.Proofs.Grammar.Outline
import DotCompletion.Proofs.Tree.Numbering

/-!
# What a resolution tells about the tree

A search that succeeds fixes how reference, target and cursor lie in the tree.
The target of a qualified name is the first child of the reference. The target
of a name that stands alone is a number below the statement in front of the one
that holds the reference.
-/

namespace DotCompletion

namespace Entry

theorem parse_shaped (entry : Entry) (source : Bytes) :
    (entry.parse source).Every Node.Shaped := by
  obtain ⟨frame, c, hread⟩ := entry.read?_isSome source
  obtain ⟨node, rfl⟩ := read?_eq_singleton hread
  have hreads : entry.rule.Reads [] (Cursor.ofSource source) [node] c := ⟨_, hread⟩
  simp only [parse, hread]
  exact (hreads.follows entry.needs_nothing Form.allShaped_nil).2 node List.mem_cons_self

end Entry

namespace Node

/-- A reference is a name alone, or a name behind an operand and a dot. -/
theorem Shaped.reference_children {m : Node} (hm : m.Shaped) (hkind : m.kind = .referenceExpr) :
    (∃ list name, m.children = [list, name] ∧ list.kind = .referenceParameterList ∧
      name.kind = .identifier) ∨
    (∃ operand dot list name, m.children = [operand, dot, list, name] ∧
      operand.kind ∈ NodeKind.operands ∧ dot.kind = .token ∧
      list.kind = .referenceParameterList ∧ name.kind ∈ [NodeKind.identifier, .error]) := by
  have hleaf : m.kind.canBeLeaf = false := by rw [hkind]; rfl
  obtain ⟨o, ho, hfits⟩ := hm.exists_fits hleaf (by rw [hkind]; rfl)
  simp only [List.mem_cons, List.not_mem_nil, or_false] at ho
  rcases ho with rfl | rfl
  · generalize m.children = children at hfits
    rcases hfits with _ | ⟨hlist, _ | ⟨hname, ⟨⟩⟩⟩
    exact .inl ⟨_, _, rfl, List.mem_singleton.mp hlist, List.mem_singleton.mp hname⟩
  · generalize m.children = children at hfits
    rcases hfits with _ | ⟨hoperand, _ | ⟨hdot, _ | ⟨hlist, _ | ⟨hname, ⟨⟩⟩⟩⟩⟩
    exact .inr ⟨_, _, _, _, rfl, hoperand, List.mem_singleton.mp hdot,
      List.mem_singleton.mp hlist, hname⟩

/-- Among the children of a reference only the last can be a name. -/
theorem Shaped.back_eq_nil {m n : Node} {front back : List Node} (hm : m.Shaped)
    (hkind : m.kind = .referenceExpr) (hsplit : m.children = front ++ n :: back)
    (hn : n.kind = .identifier) : back = [] := by
  have hoperands : NodeKind.identifier ∉ NodeKind.operands := by decide
  rcases hm.reference_children hkind with
    ⟨list, name, hchildren, hlist, _⟩ | ⟨operand, dot, list, name, hchildren, hoperand, hdot,
      hlist, _⟩
  · rw [hchildren] at hsplit
    rcases front with _ | ⟨_, _ | ⟨_, _ | ⟨_, _⟩⟩⟩ <;> grind
  · rw [hchildren] at hsplit
    rcases front with _ | ⟨_, _ | ⟨_, _ | ⟨_, _ | ⟨_, _ | ⟨_, _⟩⟩⟩⟩⟩ <;> grind

end Node

namespace Tree

variable {t : Tree}

/-- The statement in front of the one that holds a reference is an expression
without a semicolon. -/
structure Follows (t : Tree) (reference expression : Nat) (statement previous : Nat) : Prop where
  holds : t.ancestor? (· == .exprStmt) reference = some statement
  before : t.previousOf? NodeKind.isStatement statement = some previous
  isStatement : t.isA .exprStmt previous = true
  first : t.firstChild? previous = some expression
  isExpression : t.isExpression expression = true
  open_end : ∃ last, t.lastChild? previous = some last ∧ t.isA .error last = true ∧
    t.previous? last = some expression

/-- A name that stands alone follows an expression that ends in a broken
number. -/
structure Recovers (t : Tree) (reference target : Nat) : Prop where
  bare : t.isBare reference = true
  found : ∃ statement previous expression,
    t.Follows reference expression statement previous ∧ t.brokenLiteral? expression = some target

theorem previousExpression_eq_ok {reference expression : Nat}
    (h : t.previousExpression reference = .ok expression) :
    ∃ statement previous, t.Follows reference expression statement previous := by
  simp only [previousExpression, pure, Except.pure, throw, throwThe, MonadExceptOf.throw] at h
  split at h
  next statement hholds =>
      split at h
      next previous hprevious =>
          obtain ⟨hbefore, hstatement⟩ := Option.filter_eq_some_iff.mp hprevious
          split at h
          next last hlast =>
              obtain ⟨hlast, herror⟩ := Option.filter_eq_some_iff.mp hlast
              split at h
              next found hfound =>
                  obtain ⟨hfirst, hexpression⟩ := Option.filter_eq_some_iff.mp hfound
                  split at h
                  next hbeside =>
                      cases h
                      exact ⟨statement, previous, hholds, hbefore, hstatement, hfirst,
                        hexpression, last, hlast, herror, hbeside⟩
                  next => cases h
              next => cases h
          next => cases h
      next => cases h
  next => cases h

theorem Follows.previousExpression_eq {reference expression statement previous : Nat}
    (h : t.Follows reference expression statement previous) :
    t.previousExpression reference = .ok expression := by
  obtain ⟨last, hlast, herror, hbeside⟩ := h.open_end
  have hprevious := Option.filter_eq_some_iff.mpr ⟨h.before, h.isStatement⟩
  have hlast := Option.filter_eq_some_iff.mpr ⟨hlast, herror⟩
  have hfirst := Option.filter_eq_some_iff.mpr ⟨h.first, h.isExpression⟩
  simp only [previousExpression, h.holds, hprevious, hlast, hfirst]
  exact if_pos hbeside

theorem resolveBroken_eq_ok {reference : Nat} {r : Resolution}
    (h : t.resolveBroken reference = .ok r) :
    r.route = .brokenLiteral ∧ r.reference = reference ∧ t.Recovers reference r.target := by
  simp only [resolveBroken, bind, Except.bind, pure, Except.pure, throw, throwThe,
    MonadExceptOf.throw] at h
  split at h
  next => cases h
  next hbare =>
      split at h
      next => cases h
      next expression hexpression =>
          split at h
          next target htarget =>
              cases h
              obtain ⟨statement, previous, hfollows⟩ := previousExpression_eq_ok hexpression
              exact ⟨rfl, rfl, by simpa using hbare, statement, previous, expression, hfollows,
                htarget⟩
          next => cases h

theorem Recovers.resolveBroken_eq {reference target : Nat} (h : t.Recovers reference target) :
    t.resolveBroken reference = .ok ⟨.brokenLiteral, reference, target⟩ := by
  obtain ⟨statement, previous, expression, hfollows, hfound⟩ := h.found
  simp only [resolveBroken, h.bare, hfollows.previousExpression_eq, bind, Except.bind, hfound]
  rfl

theorem resolve_eq_ok {cursor : Option Nat} {r : Resolution} (h : t.resolve cursor = .ok r) :
    ∃ id, cursor = some id ∧ t.isA .identifier id = true ∧
      t.ancestor? (· == .referenceExpr) id = some r.reference ∧
      ((r.route = .qualifier ∧ t.qualifier? r.reference = some r.target) ∨
        (r.route = .brokenLiteral ∧ t.Recovers r.reference r.target)) := by
  simp only [resolve, pure, Except.pure, throw, throwThe, MonadExceptOf.throw] at h
  split at h
  next id hid =>
      obtain ⟨rfl, hkind⟩ := Option.filter_eq_some_iff.mp hid
      split at h
      next reference hreference =>
          split at h
          next target htarget =>
              cases h
              exact ⟨id, rfl, hkind, hreference, .inl ⟨rfl, htarget⟩⟩
          next =>
              obtain ⟨hroute, rfl, hrecovers⟩ := resolveBroken_eq_ok h
              exact ⟨id, rfl, hkind, hreference, .inr ⟨hroute, hrecovers⟩⟩
      next => cases h
  next => cases h

/-! ## The nodes behind the numbers -/

section

open Node (Numbered)

variable {source : Bytes} {root n : Node} {id : Nat} {above : List (Nat × Node)}

/-- The number found on the way down from an expression is a leaf below it. -/
theorem exists_brokenLiteral {levels target : Nat} (h : Numbered root id n above)
    (hfound : (ofNode source (some root)).brokenLiteralBelow? levels id = some target) :
    ∃ m above' inner tok, Numbered root target m above' ∧
      (target, m) :: above' = inner ++ (id, n) :: above ∧
      m.token = some tok ∧ tok.kind = .floatLiteral := by
  induction levels generalizing id n above with
  | zero => cases hfound
  | succ levels ih =>
      rw [brokenLiteralBelow?] at hfound
      split at hfound
      next hbroken =>
          cases hfound
          simp only [isBrokenLiteral, Bool.and_eq_true, token?_eq h] at hbroken
          cases htoken : n.token with
          | none =>
              rw [htoken] at hbroken
              cases hbroken.2
          | some tok =>
              simp only [htoken, Option.map_some, Option.getD_some, Bool.and_eq_true,
                beq_iff_eq] at hbroken
              exact ⟨n, above, [], tok, h, rfl, htoken, hbroken.2.1⟩
      next =>
          obtain ⟨child, hchild, hfound⟩ := Option.bind_eq_some_iff.mp hfound
          have hmem := List.mem_of_find?_eq_some hchild
          rw [List.mem_reverse] at hmem
          obtain ⟨front, c, back, hsplit, _, hc⟩ := exists_child h hmem
          obtain ⟨m, above', inner, tok, hm, hsuffix, htoken⟩ := ih hc hfound
          refine ⟨m, above', inner ++ [(child, c)], tok, hm, ?_, htoken⟩
          rw [hsuffix, List.append_assoc]
          rfl

/-- A leaf begins at the end of the source if it has no token of the source. -/
theorem lo_of_yield_eq_nil {tok : Token} (hlaid : n.Laid source) (htoken : n.token = some tok)
    (hyield : tok ∉ n.yield) : n.lo = source.length := by
  obtain ⟨hspan, _, hpart⟩ := hlaid.leaf tok htoken
  rcases hpart with hpart | rfl
  · refine absurd ?_ hyield
    rw [Node.yield_eq, htoken]
    simp [hpart.solid.kind]
  · rw [Node.lo, hspan]
    exact Position.origin_advance_offset source

/-- The target of a name that stands alone ends in front of every leaf below the
statement of the name. -/
theorem Recovers.hi_le {reference target : Nat} (hlaid : root.Every (Node.Laid source))
    (hrecovers : (ofNode source (some root)).Recovers reference target)
    (h : Numbered root reference n above) {cursor : Nat} {leaf : Node}
    {around inner : List (Nat × Node)} (hleaf : Numbered root cursor leaf around)
    (hsplit : around = inner ++ (reference, n) :: above) {tok : Token}
    (htoken : leaf.token = some tok) :
    ∃ m above' broken, Numbered root target m above' ∧ m.token = some broken ∧
      broken.kind = .floatLiteral ∧ m.children = [] ∧ m.hi ≤ leaf.lo := by
  obtain ⟨statement, previous, expression, hfollows, hfound⟩ := hrecovers.found
  obtain ⟨between, s, aboveStatement, habove, hs, _, _⟩ := ancestor?_eq_some h hfollows.holds
  obtain ⟨outer, parent, aboveParent, front, p, middle, back, rfl, hchildren, hp, _⟩ :=
    exists_previous hs hfollows.before
  obtain ⟨e, _, _, he⟩ := exists_firstChild hp hfollows.first
  obtain ⟨m, above', path, broken, hm, hpath, hbroken, hkind⟩ := exists_brokenLiteral he hfound
  obtain ⟨hspan, hnil, hpart⟩ := (hm.every hlaid).own.leaf broken hbroken
  refine ⟨m, above', broken, hm, hbroken, hkind, hnil, ?_⟩
  have hhi : m.hi = broken.hi := by rw [Node.hi, hspan]; rfl
  rw [hhi]
  by_cases hyield : tok ∈ leaf.yield
  · -- both tokens lie below children of one node, the number in the earlier child
    have hbelow : broken ∈ p.yield := by
      have houter : (previous, p) ∈ (target, m) :: above' := by rw [hpath]; simp
      refine hm.yield_subset houter ?_
      rw [Node.yield_eq, hbroken]
      simp [hkind]
    have hwithin : tok ∈ s.yield := by
      have houter : (statement, s) ∈ (cursor, leaf) :: around := by simp [hsplit, habove]
      exact hleaf.yield_subset houter hyield
    have hordered := (hs.parent.every hlaid).own.ordered
    rw [hchildren] at hordered
    have hbefore : p.Before s :=
      (List.pairwise_cons.mp (List.pairwise_append.mp hordered).2.1).1 s (by simp)
    have hlo : leaf.lo = tok.lo := by
      rw [Node.lo, ((hleaf.every hlaid).own.leaf tok htoken).1]
      rfl
    calc broken.hi ≤ s.lo := (hbefore.tokens broken hbelow).1
      _ ≤ tok.lo := ((hs.every hlaid).own.covers tok hwithin).1
      _ = leaf.lo := hlo.symm
  · rw [lo_of_yield_eq_nil (hleaf.every hlaid).own htoken hyield, ← hhi]
    exact (hm.every hlaid).own.stop_in.offset_le

end

end Tree

end DotCompletion
