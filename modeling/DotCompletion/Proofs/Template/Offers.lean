import Mathlib.Data.List.Basic
import DotCompletion.Template.Expansion

/-!
# What templates offer

A set of templates is asked template by template, and each of them offers at
most one proposal: for the first candidate it accepts. If the user asks for
completion, templates that are restricted to some types also accept candidates
whose type is not known. A template may choose another candidate then, but it is
not left without one where it had one before.
-/

namespace DotCompletion

namespace Template

/-- The template as it is registered. -/
def registration (t : Template) : Registration :=
  ⟨⟨t.name, t.description, t.sample⟩, t.provider.create⟩

/-- What the template offers at a site, if it is asked there. -/
def offer? (t : Template) (s : Site) : Option Proposal :=
  (t.choose? s.force s.candidates).map fun c => t.registration.finish s (t.proposal c)

/-! ## One template after the other -/

theorem ofProvider?_provider (t : Template) :
    Registration.ofProvider? t.provider =
      if Word.isWord t.name then some t.registration else none := by
  rw [Registration.ofProvider?, provider, Option.filter_some]
  change Option.map _ (if Word.isWord t.name then _ else none) = _
  split
  next => rfl
  next => rfl

/-- The templates with proper names are registered in their order. -/
theorem registrations_manager (templates : List Template) :
    (manager templates).registrations =
      (templates.filter fun t => Word.isWord t.name).map registration := by
  change (templates.map provider).filterMap Registration.ofProvider? = _
  induction templates with
  | nil => rfl
  | cons t templates ih =>
      rw [List.map_cons, List.filter_cons]
      by_cases hname : Word.isWord t.name = true
      · rw [List.filterMap_cons_some (by rw [ofProvider?_provider, if_pos hname]), if_pos hname, ih]
        rfl
      · rw [List.filterMap_cons_none (by rw [ofProvider?_provider, if_neg hname]), if_neg hname, ih]

theorem proposals_registration (t : Template) (s : Site) :
    t.registration.proposals s s.candidates = (t.offer? s).toList := by
  change ((t.choose? s.force s.candidates).map t.proposal).toList.map _ = _
  rw [offer?]
  cases t.choose? s.force s.candidates with
  | none => rfl
  | some c => rfl

/-- Each template adds what it offers. -/
theorem proposalsAt_manager (templates : List Template) (s : Site) :
    (manager templates).proposalsAt s =
      (templates.filter fun t => Word.isWord t.name).filterMap (offer? · s) := by
  rw [Manager.proposalsAt, registrations_manager, List.flatMap_map]
  simp only [proposals_registration]
  exact (List.filterMap_eq_flatMap_toList _ _).symm

theorem available_of_ok {t : Tree} {cursor : Option Nat} {r : Resolution}
    (h : t.resolve cursor = .ok r) (templates : List Template) (force : Bool) :
    (manager templates).available t cursor force =
      (templates.filter fun t => Word.isWord t.name).filterMap (offer? · ⟨t, r, force⟩) := by
  rw [Manager.available, h]
  exact proposalsAt_manager templates _

theorem available_of_error {t : Tree} {cursor : Option Nat} {reason : NoMatch}
    (h : t.resolve cursor = .error reason) (m : Manager) (force : Bool) :
    m.available t cursor force = [] := by
  rw [Manager.available, h]

theorem available_singleton {t : Tree} {cursor : Option Nat} {r : Resolution}
    (h : t.resolve cursor = .ok r) (template : Template) (force : Bool) :
    (manager [template]).available t cursor force =
      if Word.isWord template.name then (template.offer? ⟨t, r, force⟩).toList else [] := by
  rw [available_of_ok h, List.filterMap_eq_flatMap_toList, List.filter_cons]
  split
  next => rw [List.filter_nil, List.flatMap_singleton]
  next => rfl

/-- What is available is what is available of each template. -/
theorem available_eq_flatMap (templates : List Template) (t : Tree) (cursor : Option Nat)
    (force : Bool) :
    (manager templates).available t cursor force =
      templates.flatMap fun template => (manager [template]).available t cursor force := by
  cases hresolve : t.resolve cursor with
  | error reason => simp [available_of_error hresolve]
  | ok r =>
      simp only [available_of_ok hresolve]
      induction templates with
      | nil => rfl
      | cons template templates ih =>
          rw [List.flatMap_cons, ← ih, ← List.filterMap_append, ← List.filter_append,
            List.singleton_append]

/-! ## Asking for completion -/

variable {t : Template} {c : Candidate} {candidates : List Candidate}

/-- The user's asking makes a difference for candidates without a known type only. -/
theorem accepts_true_cases (h : t.accepts true c = true) :
    t.accepts false c = true ∨ (t.types ≠ [] ∧ c.type = none) := by
  simp only [accepts, acceptsTypeOf, Bool.and_eq_true, Bool.or_eq_true] at h ⊢
  obtain ⟨hstatement, hempty | htype⟩ := h
  · exact .inl ⟨hstatement, .inl hempty⟩
  · cases hknown : c.type with
    | some type =>
        rw [hknown] at htype
        exact .inl ⟨hstatement, .inr htype⟩
    | none =>
        by_cases htypes : t.types = []
        · exact .inl ⟨hstatement, .inl (by rw [htypes]; rfl)⟩
        · exact .inr ⟨htypes, rfl⟩

theorem accepts_of_accepts_false (h : t.accepts false c = true) : t.accepts true c = true := by
  simp only [accepts, acceptsTypeOf, Bool.and_eq_true, Bool.or_eq_true] at h ⊢
  refine ⟨h.1, h.2.imp_right fun htype => ?_⟩
  cases hknown : c.type with
  | some type => rwa [hknown] at htype
  | none => rfl

/-- Where there is a choice, there is one as well if the user asks for completion. -/
theorem choose?_true_isSome (h : (t.choose? false candidates).isSome = true) :
    (t.choose? true candidates).isSome = true := by
  rw [choose?, List.find?_isSome] at h ⊢
  obtain ⟨c, hc, haccepts⟩ := h
  exact ⟨c, hc, accepts_of_accepts_false haccepts⟩

/-- If the choice is another one, the type of what is chosen is not known: otherwise it is the
first candidate that is accepted, with or without asking. -/
theorem choose?_ne (h : t.choose? false candidates ≠ t.choose? true candidates) :
    t.types ≠ [] ∧ ∃ c, t.choose? true candidates = some c ∧ c.type = none := by
  cases hforced : t.choose? true candidates with
  | none =>
      cases hplain : t.choose? false candidates with
      | none => exact absurd (hplain.trans hforced.symm) h
      | some c =>
          have hsome := choose?_true_isSome (Option.isSome_of_eq_some hplain)
          rw [hforced] at hsome
          cases hsome
  | some c =>
      obtain ⟨hc, front, back, hsplit, hfront⟩ := List.find?_eq_some_iff_append.mp hforced
      rcases accepts_true_cases hc with hplain | ⟨htypes, htype⟩
      · -- nothing in front of the candidate is accepted without asking either
        have hsame : t.choose? false candidates = some c := by
          refine List.find?_eq_some_iff_append.mpr ⟨hplain, front, back, hsplit, fun a ha => ?_⟩
          have hnot := hfront a ha
          rw [Bool.not_eq_true', Bool.eq_false_iff] at hnot ⊢
          exact fun haccepts => hnot (accepts_of_accepts_false haccepts)
        exact absurd (hsame.trans hforced.symm) h
      · exact ⟨htypes, c, rfl, htype⟩

theorem offer?_label {s : Site} {p : Proposal} (h : t.offer? s = some p) : p.label = t.name := by
  obtain ⟨c, -, rfl⟩ := Option.map_eq_some_iff.mp h
  rfl

theorem offer?_provider {s : Site} {p : Proposal} (h : t.offer? s = some p) :
    p.provider = t.name := by
  obtain ⟨c, -, rfl⟩ := Option.map_eq_some_iff.mp h
  rfl

/-- What is offered is labelled with the names of the templates, in their order. -/
theorem labels_filterMap (templates : List Template) (s : Site) :
    (templates.filterMap (offer? · s)).map Proposal.label =
      (templates.filter fun t => (t.offer? s).isSome).map name := by
  induction templates with
  | nil => rfl
  | cons t templates ih =>
      rw [List.filterMap_cons, List.filter_cons]
      cases hoffer : t.offer? s with
      | none => exact ih
      | some p =>
          rw [List.map_cons, ih, offer?_label hoffer]
          rfl

/-- The candidates are the same with and without asking, so that only the choice can differ. -/
theorem choose?_ne_of_offer? {tree : Tree} {r : Resolution}
    (h : t.offer? ⟨tree, r, false⟩ ≠ t.offer? ⟨tree, r, true⟩) :
    t.choose? false (Site.mk tree r true).candidates ≠
      t.choose? true (Site.mk tree r true).candidates := by
  intro hsame
  apply h
  change Option.map _ (t.choose? false (Site.mk tree r true).candidates) = _
  rw [hsame]
  rfl

theorem offer?_true_isSome {tree : Tree} {r : Resolution}
    (h : (t.offer? ⟨tree, r, false⟩).isSome = true) :
    (t.offer? ⟨tree, r, true⟩).isSome = true := by
  rw [offer?, Option.isSome_map] at h ⊢
  exact choose?_true_isSome h

/-- The user's asking for completion only adds. Each template is asked by itself; the labels of
what is available without asking are among those with it, in the same order. If a template offers
something else, or something for the first time, then it is restricted to some types, and the
candidate that it chooses has a type that is not known. -/
theorem asking_only_adds (templates : List Template) (t : Tree) (cursor : Option Nat) :
    (∀ force, (manager templates).available t cursor force =
      templates.flatMap fun template => (manager [template]).available t cursor force) ∧
    (((manager templates).available t cursor false).map Proposal.label).Sublist
      (((manager templates).available t cursor true).map Proposal.label) ∧
    ∀ template ∈ templates,
      (manager [template]).available t cursor false ≠ (manager [template]).available t cursor true →
      template.types ≠ [] ∧ ∃ r c, t.resolve cursor = .ok r ∧
        template.choose? true (Site.mk t r true).candidates = some c ∧ c.type = none ∧
        (manager [template]).available t cursor true =
          [template.registration.finish ⟨t, r, true⟩ (template.proposal c)] := by
  refine ⟨available_eq_flatMap templates t cursor, ?_, fun template _ hne => ?_⟩
  · cases hresolve : t.resolve cursor with
    | error reason =>
        rw [available_of_error hresolve]
        exact List.nil_sublist _
    | ok r =>
        rw [available_of_ok hresolve, available_of_ok hresolve, labels_filterMap, labels_filterMap]
        exact (List.monotone_filter_right _ fun _ => offer?_true_isSome).map name
  · cases hresolve : t.resolve cursor with
    | error reason =>
        rw [available_of_error hresolve, available_of_error hresolve] at hne
        exact absurd rfl hne
    | ok r =>
        rw [available_singleton hresolve, available_singleton hresolve] at hne
        by_cases hname : Word.isWord template.name = true
        · rw [if_pos hname, if_pos hname] at hne
          obtain ⟨htypes, c, hchosen, htype⟩ := choose?_ne
            (choose?_ne_of_offer? fun hsame => hne (congrArg Option.toList hsame))
          refine ⟨htypes, r, c, rfl, hchosen, htype, ?_⟩
          rw [available_singleton hresolve, if_pos hname, offer?, hchosen]
          rfl
        · rw [if_neg hname, if_neg hname] at hne
          exact absurd rfl hne

/-- The type of `b` is not known, that of the comparison is: if the user asks for completion, the
template for truth values turns from the comparison to `b`. -/
theorem asking_only_adds_inner_candidate :
    let tree := Tree.parse .statements (Bytes.ofString "a == b.t;")
    let t : Template := { blank with name := "t", types := ["boolean"], body := "$expr" }
    ((manager [t]).available tree (some 13) false).map Proposal.snippet =
        [Bytes.ofString "a == b"] ∧
      ((manager [t]).available tree (some 13) true).map Proposal.snippet = [Bytes.ofString "b"] ∧
      t.types ≠ [] ∧ ∃ r c, tree.resolve (some 13) = .ok r ∧
        t.choose? true (Site.mk tree r true).candidates = some c ∧ c.type = none ∧
        (manager [t]).available tree (some 13) true =
          [t.registration.finish ⟨tree, r, true⟩ (t.proposal c)] := by
  intro tree t
  have hrun : ((manager [t]).available tree (some 13) false).map Proposal.snippet =
        [Bytes.ofString "a == b"] ∧
      ((manager [t]).available tree (some 13) true).map Proposal.snippet =
        [Bytes.ofString "b"] := by decide +kernel
  refine ⟨hrun.1, hrun.2, (asking_only_adds [t] tree (some 13)).2.2 t List.mem_cons_self ?_⟩
  intro hsame
  rw [hsame, hrun.2] at hrun
  exact absurd hrun.1 (by decide)

end Template

end DotCompletion
