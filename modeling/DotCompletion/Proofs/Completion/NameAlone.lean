import DotCompletion.Completion.Candidate
import DotCompletion.Proofs.Completion.Resolving
import DotCompletion.Proofs.Tree.Flattening

/-!
# A name in a statement of its own

Behind a broken number the search looks for the statement around the name. It
takes the nearest expression statement at any height, and the target lies in the
statement in front of that one (`Tree.Recovers.exists_statements`). The name is
all of the statement only where the statement is its parent; elsewhere whatever
stands in front of the name in its statement lies between target and name
(`Tree.name_alone_iff`).
-/

namespace DotCompletion

open Node (Numbered)

namespace Tree

variable {source : Bytes} {root : Node} {reference target : Nat}

/-- The reference is the expression of a statement, and the statement in front of that one holds
the target. -/
def StandsAlone (t : Tree) (reference target : Nat) : Prop :=
  ∃ statement previous, t.isA .exprStmt statement = true ∧
    t.firstChild? statement = some reference ∧
    t.previousOf? NodeKind.isStatement statement = some previous ∧
    t.isAncestor previous target = true

theorem parent?_firstChild {id c : Nat} (h : (ofNode source (some root)).firstChild? id = some c) :
    (ofNode source (some root)).parent? c = some id := by
  rw [parent?_eq_some_iff]
  exact List.mem_of_mem_head? (by rw [head?_children, h]; rfl)

/-- The nearest node around a node that has a property is its parent, if the parent has it. -/
theorem ancestor?_parent {p : NodeKind → Bool} {id outer : Nat}
    (h : (ofNode source (some root)).parent? id = some outer)
    (hp : (ofNode source (some root)).hasKind p outer = true) :
    (ofNode source (some root)).ancestor? p id = some outer := by
  rw [ancestor?, ancestors_child (parent?_eq_some_iff.mp h), List.find?_cons_of_pos hp]

/-- The target of a name lies in the statement in front of the one around the name. -/
theorem Recovers.exists_statements (h : (ofNode source (some root)).Recovers reference target) :
    ∃ statement previous,
      (ofNode source (some root)).ancestor? (· == .exprStmt) reference = some statement ∧
      (ofNode source (some root)).previousOf? NodeKind.isStatement statement = some previous ∧
      (ofNode source (some root)).isA .exprStmt previous = true ∧
      (ofNode source (some root)).isAncestor previous target = true := by
  obtain ⟨statement, previous, expression, hfollows, hfound⟩ := h.found
  refine ⟨statement, previous, hfollows.holds, hfollows.before, hfollows.isStatement, ?_⟩
  obtain ⟨p, above, hp, -⟩ := exists_of_hasKind hfollows.isStatement
  obtain ⟨e, _, -, he⟩ := exists_firstChild hp hfollows.first
  obtain ⟨m, above', path, _, hm, hpath, -⟩ := exists_brokenLiteral he hfound
  have hmem : (previous, p) ∈ above' := by
    cases path with
    | nil =>
        cases hpath
        exact List.mem_cons_self
    | cons _ path =>
        rw [(List.cons.inj hpath).2]
        simp
  rw [isAncestor, ancestors_eq hm, List.contains_iff_mem]
  exact List.mem_map_of_mem hmem

/-- The expression of a statement is its first child. -/
theorem firstChild?_of_parent (hshaped : root.Every Node.Shaped) {statement : Nat}
    (hstatement : (ofNode source (some root)).isA .exprStmt statement = true)
    (hparent : (ofNode source (some root)).parent? reference = some statement)
    (hreference : (ofNode source (some root)).isA .referenceExpr reference = true) :
    (ofNode source (some root)).firstChild? statement = some reference := by
  obtain ⟨n, above, hn, hkind⟩ := exists_of_hasKind hstatement
  rw [beq_iff_eq] at hkind
  obtain ⟨front, m, back, hsplit, rfl, hm⟩ := exists_child hn (parent?_eq_some_iff.mp hparent)
  rw [isA_eq hm, beq_iff_eq] at hreference
  obtain ⟨o, ho, hfits⟩ := (hn.every hshaped).own.exists_fits (by rw [hkind]; rfl)
    (by rw [hkind]; rfl)
  rw [List.mem_singleton.mp ho, hsplit] at hfits
  cases front with
  | nil => exact firstChild?_eq hn hsplit
  | cons _ front =>
      -- behind the expression stands a sign or a mark
      have hnot : m.kind ∉ [NodeKind.token, NodeKind.error] := by
        rw [hreference]
        decide
      cases front with
      | nil =>
          rcases hfits with _ | ⟨_, _ | ⟨hkind', _⟩⟩
          exact absurd hkind' hnot
      | cons _ front =>
          rcases hfits with _ | ⟨_, _ | ⟨_, hrest⟩⟩
          cases front <;> cases hrest

/-- The target of a name on its own lies in the statement in front of the nearest one around the
name. The name is the expression of that statement exactly if the statement is the parent of
the reference. -/
theorem name_alone_iff {entry : Entry} {cursor : Option Nat} {r : Resolution}
    (h : (Tree.parse entry source).resolve cursor = .ok r) (hroute : r.route = .brokenLiteral) :
    ∃ statement previous,
      (Tree.parse entry source).ancestor? (· == .exprStmt) r.reference = some statement ∧
      (Tree.parse entry source).previousOf? NodeKind.isStatement statement = some previous ∧
      (Tree.parse entry source).isA .exprStmt previous = true ∧
      (Tree.parse entry source).isAncestor previous r.target = true ∧
      ((Tree.parse entry source).StandsAlone r.reference r.target ↔
        (Tree.parse entry source).parent? r.reference = some statement) := by
  have hshaped := entry.parse_shaped source
  rw [Tree.parse] at h ⊢
  generalize entry.parse source = root at h hshaped ⊢
  obtain ⟨cursor, -, -, hreference, hcase⟩ := resolve_eq_ok h
  have hrecovers : (ofNode source (some root)).Recovers r.reference r.target := by
    rcases hcase with ⟨hqualifier, -⟩ | ⟨-, hrecovers⟩
    · rw [hroute] at hqualifier
      cases hqualifier
    · exact hrecovers
  obtain ⟨statement, previous, hholds, hbefore, hprevious, hinside⟩ := hrecovers.exists_statements
  refine ⟨statement, previous, hholds, hbefore, hprevious, hinside, ?_, fun hparent => ?_⟩
  · rintro ⟨own, _, hown, hfirst, -⟩
    have hparent := parent?_firstChild hfirst
    rw [ancestor?_parent hparent hown, Option.some.injEq] at hholds
    rw [← hholds, hparent]
  · have hstatement := List.find?_some hholds
    have hkind := List.find?_some hreference
    exact ⟨statement, previous, hstatement, firstChild?_of_parent hshaped hstatement hparent hkind,
      hbefore, hinside⟩

theorem name_alone_behind_number :
    (Tree.parse .statements (Bytes.ofString "0. b;")).resolve (some 7) =
        .ok ⟨.brokenLiteral, 5, 2⟩ ∧
      (Tree.parse .statements (Bytes.ofString "0. b;")).StandsAlone 5 2 := by
  have hrun : (Tree.parse .statements (Bytes.ofString "0. b;")).resolve (some 7) =
        .ok ⟨.brokenLiteral, 5, 2⟩ ∧
      (Tree.parse .statements (Bytes.ofString "0. b;")).ancestor? (· == .exprStmt) 5 = some 4 ∧
      (Tree.parse .statements (Bytes.ofString "0. b;")).parent? 5 = some 4 := by decide +kernel
  obtain ⟨hresolve, hstatement, hparent⟩ := hrun
  obtain ⟨statement, _, hholds, -, -, -, halone⟩ := name_alone_iff hresolve rfl
  rw [hstatement, Option.some.injEq] at hholds
  rw [← hholds] at halone
  exact ⟨hresolve, halone.mpr hparent⟩

/-- The search succeeds at a name among the arguments of a call, and a proposal would replace
the beginning of the call together with the number. -/
theorem name_among_arguments :
    (Tree.parse .statements (Bytes.ofString "0. a(b);")).resolve (some 13) =
        .ok ⟨.brokenLiteral, 11, 2⟩ ∧
      ¬(Tree.parse .statements (Bytes.ofString "0. a(b);")).StandsAlone 11 2 ∧
      (Tree.parse .statements (Bytes.ofString "0. a(b);")).textOf
        (Site.replaceSpan ⟨.parse .statements (Bytes.ofString "0. a(b);"), ⟨.brokenLiteral, 11, 2⟩,
          false⟩ 2) = Bytes.ofString "0. a(b" := by
  have hrun : (Tree.parse .statements (Bytes.ofString "0. a(b);")).resolve (some 13) =
        .ok ⟨.brokenLiteral, 11, 2⟩ ∧
      (Tree.parse .statements (Bytes.ofString "0. a(b);")).parent? 11 = some 9 ∧
      (Tree.parse .statements (Bytes.ofString "0. a(b);")).isA .exprStmt 9 = false ∧
      (Tree.parse .statements (Bytes.ofString "0. a(b);")).textOf
        (Site.replaceSpan ⟨.parse .statements (Bytes.ofString "0. a(b);"), ⟨.brokenLiteral, 11, 2⟩,
          false⟩ 2) = Bytes.ofString "0. a(b" := by decide +kernel
  obtain ⟨hresolve, hparent, hkind, htext⟩ := hrun
  refine ⟨hresolve, ?_, htext⟩
  rintro ⟨statement, _, hstatement, hfirst, -⟩
  obtain rfl := Option.some.inj ((parent?_firstChild hfirst).symm.trans hparent)
  exact Bool.false_ne_true (hkind.symm.trans hstatement)

end Tree

end DotCompletion
