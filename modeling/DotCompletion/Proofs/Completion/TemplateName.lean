import DotCompletion.Proofs.Completion.Resolving

/-!
# Where the template's name stands

The name of a template is meant to be the leaf at the cursor: the last child of
the reference, behind the target. The search takes the nearest reference around
the cursor at any distance, so this can fail: in `new F().b` the leaf `F` lies
inside the target of `b`. It holds exactly if the reference is the parent of the
cursor.
-/

namespace DotCompletion

namespace Tree

open Node (Numbered)

variable {source : Bytes} {root n m : Node} {cursor reference target : Nat}
  {above inner : List (Nat × Node)}

/-- The qualifier of a reference ends in front of the name. -/
theorem hi_le_of_qualifier (hlaid : root.Every (Node.Laid source))
    (hshaped : root.Every Node.Shaped) (hname : Numbered root cursor n ((reference, m) :: above))
    (hn : n.kind = .identifier)
    (hqualifier : (ofNode source (some root)).qualifier? reference = some target) :
    ∃ q, Numbered root target q ((reference, m) :: above) ∧ q.hi ≤ n.lo := by
  have hm := hname.parent
  obtain ⟨hfirst, hexpression⟩ := Option.filter_eq_some_iff.mp hqualifier
  obtain ⟨q, back, hchildren, hq⟩ := exists_firstChild hm hfirst
  rw [isExpression, hasKind_eq hq] at hexpression
  refine ⟨q, hq, ?_⟩
  have hmem : n ∈ back := by
    have hmem : n ∈ m.children := by
      cases hname with
      | child _ hsplit => simp [hsplit]
    rw [hchildren] at hmem
    refine (List.mem_cons.mp hmem).resolve_left ?_
    rintro rfl
    rw [hn] at hexpression
    cases hexpression
  have hordered := (hm.every hlaid).own.ordered
  rw [hchildren] at hordered
  have hbefore := (List.pairwise_cons.mp hordered).1 n hmem
  obtain ⟨tok, htoken⟩ := (hname.every hshaped).own.exists_token (by rw [hn]; rfl)
  have hleaf := (hname.every hlaid).own
  by_cases hyield : tok ∈ n.yield
  · have hlo : n.lo = tok.lo := by
      rw [Node.lo, (hleaf.leaf tok htoken).1]
      rfl
    rw [hlo]
    exact (hbefore.spans tok hyield).2
  · rw [lo_of_yield_eq_nil hleaf htoken hyield]
    exact (hq.every hlaid).own.stop_in.offset_le

/-- The parent of a node is the nearest of the nodes around it. -/
theorem inner_eq_nil_of_parent (h : Numbered root cursor n (inner ++ (reference, m) :: above))
    (hparent : (ofNode source (some root)).parent? cursor = some reference) : inner = [] := by
  rw [parent?_eq h] at hparent
  cases inner with
  | nil => rfl
  | cons a inner =>
      obtain ⟨a, p⟩ := a
      have hlt := (h.parent.range_of_mem_above (List.mem_append_right inner List.mem_cons_self)).1
      simp only [List.cons_append, List.head?_cons, Option.map_some, Option.some.injEq] at hparent
      omega

theorem isAncestor_eq_false (h : Numbered root cursor n above)
    (htarget : ∀ p, (target, p) ∉ above) :
    (ofNode source (some root)).isAncestor target cursor = false := by
  rw [isAncestor, ancestors_eq h, List.contains_eq_mem, decide_eq_false_iff_not, List.mem_map]
  rintro ⟨⟨_, p⟩, hmem, rfl⟩
  exact htarget p hmem

/-- If the search succeeds, the cursor is the last child of the reference and the
target lies in front of it exactly if the reference is the parent of the
cursor. -/
theorem name_behind_target_iff {entry : Entry} {r : Resolution}
    (h : (Tree.parse entry source).resolve (some cursor) = .ok r) :
    ((Tree.parse entry source).lastChild? r.reference = some cursor ∧
      (∃ before name, (Tree.parse entry source).span? r.target = some before ∧
        (Tree.parse entry source).span? cursor = some name ∧
        before.stop.offset ≤ name.start.offset) ∧
      (Tree.parse entry source).isAncestor r.target cursor = false) ↔
    (Tree.parse entry source).parent? cursor = some r.reference := by
  have hlaid := entry.parse_laid source
  have hshaped := entry.parse_shaped source
  rw [Tree.parse] at h ⊢
  generalize entry.parse source = root at h hlaid hshaped ⊢
  obtain ⟨_, hcursor, hkind, hreference, hroute⟩ := resolve_eq_ok h
  cases hcursor
  obtain ⟨n, above, hn, hidentifier⟩ := exists_of_hasKind hkind
  rw [beq_iff_eq] at hidentifier
  obtain ⟨inner, m, outer, rfl, hm, hmkind, _⟩ := ancestor?_eq_some hn hreference
  rw [beq_iff_eq] at hmkind
  constructor
  · rintro ⟨hlast, _⟩
    rw [← getLast?_children] at hlast
    obtain ⟨_, m', _, _, _, hm'⟩ := exists_child hm (List.mem_of_getLast? hlast)
    rw [parent?_eq hm']
    rfl
  · intro hparent
    have hinner := inner_eq_nil_of_parent hn hparent
    subst hinner
    have hlast : (ofNode source (some root)).lastChild? r.reference = some cursor := by
      cases hn with
      | child hm' hsplit =>
          have hback := (hm.every hshaped).own.back_eq_nil hmkind hsplit hidentifier
          subst hback
          exact lastChild?_eq hm hsplit
    refine ⟨hlast, ?_⟩
    rcases hroute with ⟨_, hqualifier⟩ | ⟨_, hrecovers⟩
    · obtain ⟨q, hq, hle⟩ := hi_le_of_qualifier hlaid hshaped hn hidentifier hqualifier
      refine ⟨⟨q.span, n.span, span?_eq hq, span?_eq hn, hle⟩, isAncestor_eq_false hn ?_⟩
      -- a node around the cursor has at most the number of the reference, the target has more
      intro p hp
      have hlt := (hq.range_of_mem_above List.mem_cons_self).1
      rcases List.mem_cons.mp hp with heq | hp
      · have hsame := congrArg Prod.fst heq
        simp only at hsame hlt
        omega
      · have houter := (hm.range_of_mem_above hp).1
        simp only at houter hlt
        omega
    · obtain ⟨tok, htoken⟩ := (hn.every hshaped).own.exists_token (by rw [hidentifier]; rfl)
      obtain ⟨p, above', _, hp, _, _, hnil, hle⟩ := hrecovers.hi_le hlaid hm hn
        (List.nil_append _).symm htoken
      refine ⟨⟨p.span, n.span, span?_eq hp, span?_eq hn, hle⟩, isAncestor_eq_false hn ?_⟩
      intro p' hp'
      obtain ⟨front, back, hsplit⟩ := List.append_of_mem hp'
      obtain ⟨rfl, _⟩ := hp.unique (hn.outer hsplit)
      -- a leaf has nothing below it
      have hrange := hn.range_of_mem_above hp'
      have hsize := p.size_eq
      have hpos := n.size_pos
      rw [hnil, Node.sizeAll_nil] at hsize
      simp only at hrange
      omega

theorem name_behind_target_of_field :
    (Tree.parse .statements (Bytes.ofString "a.b;")).resolve (some 8) = .ok ⟨.qualifier, 2, 3⟩ ∧
      (Tree.parse .statements (Bytes.ofString "a.b;")).parent? 8 = some 2 ∧
      (Tree.parse .statements (Bytes.ofString "a.b;")).lastChild? 2 = some 8 ∧
      (Tree.parse .statements (Bytes.ofString "a.b;")).isAncestor 3 8 = false := by
  have hresolve : (Tree.parse .statements (Bytes.ofString "a.b;")).resolve (some 8) =
      .ok ⟨.qualifier, 2, 3⟩ := by decide +kernel
  have hparent : (Tree.parse .statements (Bytes.ofString "a.b;")).parent? 8 = some 2 := by
    decide +kernel
  obtain ⟨hlast, _, houtside⟩ := (name_behind_target_iff hresolve).mpr hparent
  exact ⟨hresolve, hparent, hlast, houtside⟩

/-- The search succeeds at a name inside the target: the type behind `new`. -/
theorem name_inside_target :
    (Tree.parse .statements (Bytes.ofString "new F().b;")).resolve (some 6) =
        .ok ⟨.qualifier, 2, 3⟩ ∧
      (Tree.parse .statements (Bytes.ofString "new F().b;")).lastChild? 2 ≠ some 6 ∧
      (Tree.parse .statements (Bytes.ofString "new F().b;")).isAncestor 3 6 = true := by
  decide +kernel

end Tree

end DotCompletion
