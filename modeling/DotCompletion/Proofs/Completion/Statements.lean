import Mathlib.Data.List.TakeWhile
import DotCompletion.Proofs.Completion.Resolving
import DotCompletion.Proofs.Tree.Flattening
import DotCompletion.Template.Expansion

/-!
# The candidate that is a statement

A candidate can be a statement only if an expression statement is its parent, or
the parent of the reference right around it. Either way no further expression
lies around the candidate, so it is the outermost one (`Site.eq_nil_of_canBeStatement`).
A template for statements therefore has no choice: it makes the same proposals
whether it prefers the outermost candidate or the innermost one.
-/

namespace DotCompletion

open Node (Numbered)

namespace Tree

variable {source : Bytes} {root : Option Node} {id : Nat}

theorem exists_root_of_resolve {cursor : Option Nat} {r : Resolution}
    (h : (ofNode source root).resolve cursor = .ok r) : ∃ n, root = some n := by
  obtain ⟨id, -, hkind, -⟩ := resolve_eq_ok h
  cases root with
  | none => cases hkind
  | some n => exact ⟨n, rfl⟩

/-- What is around a node that is around another is around that one too. -/
theorem ancestors_of_ancestors {root : Node} {k : Nat} {inner outer : List Nat}
    (h : (ofNode source (some root)).ancestors id = inner ++ k :: outer) :
    (ofNode source (some root)).ancestors k = outer := by
  obtain ⟨n, above, hn⟩ | houtside := numbered_or_outside root id
  · rw [ancestors_eq hn] at h
    obtain ⟨inner, _, rfl, rfl, hcons⟩ := List.map_eq_append_iff.mp h
    obtain ⟨⟨k, m⟩, above', rfl, rfl, rfl⟩ := List.map_eq_cons_iff.mp hcons
    exact ancestors_eq (hn.outer rfl)
  · rw [ancestors_eq_nil houtside] at h
    cases (List.append_eq_nil_iff.mp h.symm).2

/-- A node of a known kind has the properties of the kind. -/
theorem hasKind_eq_of_isA {t : Tree} {kind : NodeKind} (h : t.isA kind id = true)
    (p : NodeKind → Bool) : t.hasKind p id = p kind := by
  unfold isA hasKind at h
  unfold hasKind
  cases hkind : t.kind? id with
  | none =>
      rw [hkind] at h
      cases h
  | some found =>
      rw [hkind, Option.map_some, Option.getD_some, beq_iff_eq] at h
      rw [Option.map_some, Option.getD_some, h]

end Tree

namespace Site

variable {s : Site} {source : Bytes} {root : Node} {id : Nat}

/-- A candidate that can be a statement is the child of an expression statement, or the first
child of a reference that is. -/
theorem exists_statement (htree : s.tree = .ofNode source (some root))
    (h : s.canBeStatement id = true) :
    ∃ statement outer, s.tree.isExpression statement = false ∧
      (s.tree.ancestors id = statement :: outer ∨
        s.tree.ancestors id = s.reference :: statement :: outer) := by
  unfold canBeStatement at h
  split at h
  next statement hstatement =>
      obtain ⟨-, hkind⟩ := Option.filter_eq_some_iff.mp hstatement
      have hchild {top : Nat}
          (htop : s.tree.firstOfKind? NodeKind.expressions statement = some top) :
          s.tree.ancestors top = statement :: s.tree.ancestors statement := by
        rw [htree] at htop ⊢
        exact Tree.ancestors_child (List.mem_of_find?_eq_some htop)
      refine ⟨statement, s.tree.ancestors statement,
        Tree.hasKind_eq_of_isA hkind NodeKind.isExpression, ?_⟩
      simp only [Bool.or_eq_true, Bool.and_eq_true, beq_iff_eq] at h
      rcases h with htop | ⟨htop, hfirst⟩
      · exact .inl (hchild htop)
      · right
        rw [← hchild htop]
        rw [htree] at hfirst ⊢
        have hhead := (Tree.head?_children s.reference).trans hfirst
        exact Tree.ancestors_child (List.mem_of_mem_head? hhead)
  next => cases h

/-- The candidates behind one of them are expressions around it, and all expressions from there
to the outermost of them but the reference. -/
theorem exists_around (htree : s.tree = .ofNode source (some root)) {front back : List Nat}
    (h : s.target :: s.outer = front ++ id :: back) :
    ∃ inner rest, s.tree.ancestors id = inner ++ rest ∧
      (∀ i ∈ inner, s.tree.isExpression i = true) ∧ ∀ i ∈ back, i ∈ inner ∧ i ≠ s.reference := by
  have hsplit := @List.takeWhile_append_dropWhile _ s.tree.isExpression (s.tree.ancestors s.target)
  obtain ⟨more, hmore⟩ := List.takeWhile_prefix (fun id => (s.spanOf id).stop.offset == s.stop)
    (l := ((s.tree.ancestors s.target).takeWhile s.tree.isExpression).filter (· != s.reference))
  change s.outer ++ more = _ at hmore
  have hexpression := fun i (hi : i ∈ (s.tree.ancestors s.target).takeWhile s.tree.isExpression) =>
    List.mem_takeWhile_imp hi
  generalize (s.tree.ancestors s.target).takeWhile s.tree.isExpression = inner at *
  generalize (s.tree.ancestors s.target).dropWhile s.tree.isExpression = rest at *
  cases front with
  | nil =>
      obtain ⟨rfl, rfl⟩ := List.cons.inj h
      refine ⟨inner, rest, hsplit.symm, hexpression, fun i hi => ?_⟩
      have hmem : i ∈ inner.filter (· != s.reference) := by
        rw [← hmore]
        exact List.mem_append_left _ hi
      simpa using List.mem_filter.mp hmem
  | cons target front =>
      obtain ⟨-, houter⟩ := List.cons.inj h
      change s.outer = front ++ id :: back at houter
      rw [houter, List.append_assoc, List.cons_append, eq_comm, List.filter_eq_append_iff] at hmore
      obtain ⟨l, l', rfl, -, hmore⟩ := hmore
      obtain ⟨k, around, rfl, -, -, haround⟩ := List.filter_eq_cons_iff.mp hmore
      refine ⟨around, rest, ?_, fun i hi => hexpression i (by simp [hi]), fun i hi => ?_⟩
      · rw [htree] at hsplit ⊢
        rw [← List.append_assoc, List.append_assoc, List.cons_append] at hsplit
        exact Tree.ancestors_of_ancestors hsplit.symm
      · have hmem : i ∈ around.filter (· != s.reference) := by
          rw [haround]
          exact List.mem_append_left _ hi
        simpa using List.mem_filter.mp hmem

/-- No candidate lies around one that can be a statement. -/
theorem eq_nil_of_canBeStatement (htree : s.tree = .ofNode source (some root))
    {front back : List Nat} (h : s.target :: s.outer = front ++ id :: back)
    (hid : s.canBeStatement id = true) : back = [] := by
  obtain ⟨inner, rest, hancestors, hexpression, hback⟩ := exists_around htree h
  obtain ⟨statement, outer, hstatement, hcase⟩ := exists_statement htree hid
  have hnot : statement ∉ inner := fun hmem => by
    rw [hexpression statement hmem] at hstatement
    cases hstatement
  have hsubset : ∀ front, inner ++ rest = front ++ statement :: outer → inner ⊆ front := by
    intro front hsplit
    rcases List.append_eq_append_iff.mp hsplit with ⟨_, rfl, _⟩ | ⟨behind, rfl, hbehind⟩
    · exact List.subset_append_left _ _
    · cases behind with
      | nil => rw [List.append_nil]; exact List.Subset.refl _
      | cons i behind =>
          obtain ⟨rfl, -⟩ := List.cons.inj hbehind
          exact absurd (List.mem_append_right _ List.mem_cons_self) hnot
  -- what lies around the candidate up to the statement is the reference at most
  have hinner : ∀ i ∈ inner, i = s.reference := by
    intro i hi
    rw [hancestors] at hcase
    rcases hcase with hcase | hcase
    · exact absurd (hsubset [] hcase hi) List.not_mem_nil
    · exact List.mem_singleton.mp (hsubset [s.reference] hcase hi)
  cases back with
  | nil => rfl
  | cons i back =>
      obtain ⟨hi, hne⟩ := hback i List.mem_cons_self
      exact absurd (hinner i hi) hne

/-- Only the last candidate can be a statement. -/
theorem candidates_last (htree : s.tree = .ofNode source (some root)) {front back : List Candidate}
    {c : Candidate} (h : s.candidates = front ++ c :: back) (hc : c.canBeStatement = true) :
    back = [] := by
  obtain ⟨front, _, hsplit, rfl, hmap⟩ := List.map_eq_append_iff.mp h
  obtain ⟨id, back, rfl, rfl, rfl⟩ := List.map_eq_cons_iff.mp hmap
  rw [eq_nil_of_canBeStatement htree hsplit hc]
  rfl

end Site

namespace Template

/-- The same template with another preference. -/
def preferring (t : Template) (outermost : Bool) : Template := { t with outermost }

theorem find?_reverse {α : Type} {p : α → Bool} {l : List α}
    (h : ∀ front x back, l = front ++ x :: back → p x = true → back = []) :
    l.reverse.find? p = l.find? p := by
  cases hfound : l.find? p with
  | none =>
      rw [List.find?_eq_none] at hfound ⊢
      exact fun x hx => hfound x (List.mem_reverse.mp hx)
  | some x =>
      obtain ⟨hx, front, back, rfl, -⟩ := List.find?_eq_some_iff_append.mp hfound
      rw [h front x back rfl hx, List.reverse_append, List.reverse_singleton, List.singleton_append,
        List.find?_cons_of_pos hx]

variable {t : Template} {s : Site} {source : Bytes} {root : Node}

/-- A template for statements chooses the same candidate, whichever it prefers. -/
theorem choose?_preferring (htree : s.tree = .ofNode source (some root)) (ht : t.statement = true)
    (outermost : Bool) :
    (t.preferring outermost).choose? s.force s.candidates =
      s.candidates.find? (t.accepts s.force) := by
  have haccepts : (t.preferring outermost).accepts s.force = t.accepts s.force := rfl
  rw [choose?, ordered, haccepts]
  split
  next =>
      refine find?_reverse fun front c back hsplit hc => Site.candidates_last htree hsplit ?_
      simp only [accepts, ht, Bool.not_true, Bool.false_or, Bool.and_eq_true] at hc
      exact hc.1
  next => rfl

/-- At most the last candidate of a site can be a statement. A template for statements, whatever
its types and whether or not the user asked for completion, therefore makes the same proposals
with either preference. -/
theorem preference_idle {source : Bytes} {root : Option Node} {cursor : Option Nat}
    {r : Resolution} (h : (Tree.ofNode source root).resolve cursor = .ok r) (force : Bool) :
    (∀ front c back, (Site.mk (.ofNode source root) r force).candidates = front ++ c :: back →
      c.canBeStatement = true → back = []) ∧
    ∀ t : Template, t.statement = true → ∀ outermost,
      (t.preferring outermost).provider.create (Site.mk (.ofNode source root) r force)
          (Site.mk (.ofNode source root) r force).candidates =
        t.provider.create (Site.mk (.ofNode source root) r force)
          (Site.mk (.ofNode source root) r force).candidates := by
  obtain ⟨n, rfl⟩ := Tree.exists_root_of_resolve h
  refine ⟨fun front c back => Site.candidates_last rfl, fun t ht outermost => ?_⟩
  have hchoose := choose?_preferring (s := ⟨.ofNode source (some n), r, force⟩) rfl ht
  have hproposal : (t.preferring outermost).proposal = t.proposal := rfl
  simp only [provider, hproposal, hchoose outermost]
  rw [← hchoose t.outermost]
  rfl

/-- Behind a sign the name has two candidates, and the outer one can be a statement. -/
theorem preference_idle_behind_sign :
    let tree := Tree.parse .statements (Bytes.ofString "-a.b;")
    let s : Site := ⟨tree, ⟨.qualifier, 4, 5⟩, false⟩
    let t : Template := { blank with name := "b", statement := true, body := "f($expr)" }
    tree.resolve (some 10) = .ok ⟨.qualifier, 4, 5⟩ ∧
      s.candidates.map Candidate.canBeStatement = [false, true] ∧
      (t.preferring true).provider.create s s.candidates = t.provider.create s s.candidates := by
  intro tree s t
  have hrun : tree.resolve (some 10) = .ok ⟨.qualifier, 4, 5⟩ ∧
      s.candidates.map Candidate.canBeStatement = [false, true] := by decide +kernel
  exact ⟨hrun.1, hrun.2, (preference_idle hrun.1 false).2 t rfl true⟩

end Template

end DotCompletion
