import DotCompletion.Proofs.Template.Offers
import DotCompletion.Proofs.Text.Ascii

/-!
# Valid sets of templates

Templates are checked one after the other, and the first fault ends the check. A
set passes if every template is sound by itself and no name occurs twice. Such a
set is registered as it stands: the check of names that registration makes finds
nothing more, and what is available carries the names of templates in their
order, none of them twice.
-/

namespace DotCompletion

namespace Template

/-- The name of the template can be typed, and its body uses the expression. -/
structure Sound (t : Template) : Prop where
  name : Word.isWord t.name = true
  body : Bytes.holds expressionMark (Bytes.ofString t.body) = true

/-- The template with number `i` is not sound, or its name is used before: in front of it, or
among `seen`. -/
def Offends (seen : List String) (templates : List Template) (i : Nat) : Prop :=
  ∃ t, templates[i]? = some t ∧
    (¬t.Sound ∨ t.name ∈ seen ∨ t.name ∈ (templates.take i).map name)

variable {t : Template} {templates : List Template} {seen : List String} {i index : Nat}

/-! ## One template -/

/-- A body that uses the expression has a dollar sign, which is not blank. -/
theorem not_blank_of_holds {text : String}
    (h : Bytes.holds expressionMark (Bytes.ofString text) = true) :
    text.toList.all Blank.isBlank = false := by
  have hdollar : '$' ∈ text.toList :=
    Bytes.mem_of_mem_ofString (by decide) (Bytes.mem_of_holds h)
  rw [List.all_eq_false]
  exact ⟨'$', hdollar, by decide⟩

theorem ite_some_eq_none_iff {α : Type} {p : Prop} [Decidable p] {a : α} {o : Option α} :
    (if p then some a else o) = none ↔ ¬p ∧ o = none := by
  by_cases hp : p <;> simp [hp]

/-- A template has no fault if it is sound and its name is a new one. -/
theorem fault?_eq_none_iff : t.fault? seen = none ↔ t.Sound ∧ t.name ∉ seen := by
  simp only [fault?, ite_some_eq_none_iff, Bool.not_eq_true', Bool.not_eq_false,
    List.contains_iff_mem, and_true]
  constructor
  · rintro ⟨-, hname, hseen, -, hbody⟩
    exact ⟨⟨hname, hbody⟩, hseen⟩
  · rintro ⟨hsound, hseen⟩
    refine ⟨?_, hsound.name, hseen, ?_, hsound.body⟩
    · intro hname
      have hword := hsound.name
      rw [hname] at hword
      cases hword
    · rw [not_blank_of_holds hsound.body]
      exact Bool.false_ne_true

/-! ## The first fault -/

theorem offends_zero : Offends seen (t :: templates) 0 ↔ ¬t.Sound ∨ t.name ∈ seen := by
  simp [Offends]

theorem offends_succ :
    Offends seen (t :: templates) (i + 1) ↔ Offends (t.name :: seen) templates i := by
  simp only [Offends, List.getElem?_cons_succ, List.take_succ_cons, List.map_cons, List.mem_cons]
  refine exists_congr fun u => and_congr_right fun _ => or_congr_right ?_
  rw [or_left_comm, or_assoc]

/-- The first template is the one with the smallest number. -/
theorem forall_not_offends_cons :
    (∀ i, ¬Offends seen (t :: templates) i) ↔
      t.fault? seen = none ∧ ∀ i, ¬Offends (t.name :: seen) templates i := by
  rw [fault?_eq_none_iff]
  constructor
  · intro h
    have hfirst := h 0
    rw [offends_zero, not_or, not_not] at hfirst
    exact ⟨hfirst, fun i hi => h (i + 1) (offends_succ.mpr hi)⟩
  · rintro ⟨hfirst, hrest⟩ i hi
    cases i with
    | zero => exact (offends_zero.mp hi).elim (absurd hfirst.1) hfirst.2
    | succ i => exact hrest i (offends_succ.mp hi)

theorem firstInvalid?_eq_none_iff :
    firstInvalid? seen index templates = none ↔ ∀ i, ¬Offends seen templates i := by
  induction templates generalizing seen index with
  | nil => simp [firstInvalid?, Offends]
  | cons t templates ih =>
      rw [forall_not_offends_cons, firstInvalid?]
      cases hfault : t.fault? seen with
      | some fault => simp
      | none => simp [ih]

/-- The check ends at the smallest number at which a template offends. -/
theorem firstInvalid?_eq_some {e : Invalid} (h : firstInvalid? seen index templates = some e) :
    ∃ i, e.index = index + i ∧ (templates[i]?).map name = some e.name ∧
      Offends seen templates i ∧ ∀ j < i, ¬Offends seen templates j := by
  induction templates generalizing seen index with
  | nil => cases h
  | cons t templates ih =>
      rw [firstInvalid?] at h
      split at h
      next fault hfault =>
          cases h
          refine ⟨0, rfl, rfl, offends_zero.mpr ?_, fun j hj => absurd hj (Nat.not_lt_zero j)⟩
          by_contra hnot
          rw [not_or, not_not] at hnot
          rw [fault?_eq_none_iff.mpr hnot] at hfault
          cases hfault
      next hfault =>
          obtain ⟨i, hindex, hname, hoffends, hbefore⟩ := ih h
          refine ⟨i + 1, by omega, hname, offends_succ.mpr hoffends, fun j hj => ?_⟩
          cases j with
          | zero =>
              rw [offends_zero, not_or, not_not]
              exact fault?_eq_none_iff.mp hfault
          | succ j => exact fun hj' => hbefore j (by omega) (offends_succ.mp hj')

/-- Nothing offends if all templates are sound and no name is used twice. -/
theorem forall_not_offends_iff :
    (∀ i, ¬Offends seen templates i) ↔ (∀ t ∈ templates, t.Sound) ∧
      (templates.map name).Nodup ∧ ∀ t ∈ templates, t.name ∉ seen := by
  induction templates generalizing seen with
  | nil => simp [Offends]
  | cons t templates ih =>
      rw [forall_not_offends_cons, fault?_eq_none_iff, ih, List.forall_mem_cons,
        List.forall_mem_cons, List.map_cons, List.nodup_cons, List.mem_map]
      simp only [List.mem_cons, not_or]
      constructor
      · rintro ⟨⟨hsound, hseen⟩, hrest, hnodup, hnew⟩
        refine ⟨⟨hsound, hrest⟩, ⟨?_, hnodup⟩, hseen, fun u hu => (hnew u hu).2⟩
        rintro ⟨u, hu, hsame⟩
        exact (hnew u hu).1 hsame
      · rintro ⟨⟨hsound, hrest⟩, ⟨hfirst, hnodup⟩, hseen, hnew⟩
        refine ⟨⟨hsound, hseen⟩, hrest, hnodup, fun u hu => ⟨fun hsame => ?_, hnew u hu⟩⟩
        exact hfirst ⟨u, hu, hsame⟩

/-! ## What passes -/

theorem validate_eq_ok_iff : validate templates = .ok templates ↔
    (∀ t ∈ templates, t.Sound) ∧ (templates.map name).Nodup := by
  have hnone := @firstInvalid?_eq_none_iff templates [] 0
  rw [forall_not_offends_iff] at hnone
  simp only [List.not_mem_nil, not_false_eq_true, implies_true, and_true] at hnone
  rw [← hnone, validate]
  split
  next e he => simp [he]
  next he => simp [he]

/-- The names of all templates are words, so that none is left out. -/
theorem filter_isWord (h : ∀ t ∈ templates, t.Sound) :
    (templates.filter fun t => Word.isWord t.name) = templates :=
  List.filter_eq_self.mpr fun t ht => (h t ht).name

theorem mem_filterMap_offer? {s : Site} {p : Proposal}
    (h : p ∈ templates.filterMap (offer? · s)) : p.provider = p.label := by
  obtain ⟨t, -, ht⟩ := List.mem_filterMap.mp h
  rw [offer?_provider ht, offer?_label ht]

/-- A set of templates passes if and only if each of them has a name that can be typed and a body
that uses the expression, and no name occurs twice. Otherwise the complaint is about the first
template that offends. What passes is registered as it stands, in its order; wherever templates are
asked for, the labels of what is available are names of templates in their order, none twice, and
each proposal carries its label as the name of its provider. -/
theorem validate_agrees (templates : List Template) :
    (validate templates = .ok templates ↔
      (∀ t ∈ templates, Word.isWord t.name = true ∧
        Bytes.holds expressionMark (Bytes.ofString t.body) = true) ∧
      (templates.map name).Nodup) ∧
    (validate templates ≠ .ok templates → ∃ e, validate templates = .error e ∧
      (templates[e.index]?).map name = some e.name ∧ Offends [] templates e.index ∧
        ∀ i < e.index, ¬Offends [] templates i) ∧
    (validate templates = .ok templates →
      (manager templates).registrations = templates.map registration ∧
      ∀ t cursor force,
        (((manager templates).available t cursor force).map Proposal.label).Sublist
          (templates.map name) ∧
        (((manager templates).available t cursor force).map Proposal.label).Nodup ∧
        ∀ p ∈ (manager templates).available t cursor force, p.provider = p.label) := by
  refine ⟨?_, fun hnot => ?_, fun hok => ?_⟩
  · rw [validate_eq_ok_iff]
    exact and_congr_left' (forall₂_congr fun t _ => ⟨fun h => ⟨h.1, h.2⟩, fun h => ⟨h.1, h.2⟩⟩)
  · unfold validate at hnot ⊢
    split at hnot
    next e he =>
        obtain ⟨i, hindex, hfound⟩ := firstInvalid?_eq_some he
        rw [Nat.zero_add] at hindex
        rw [← hindex] at hfound
        exact ⟨e, rfl, hfound⟩
    next => exact absurd rfl hnot
  · obtain ⟨hsound, hnodup⟩ := validate_eq_ok_iff.mp hok
    refine ⟨by rw [registrations_manager, filter_isWord hsound], fun t cursor force => ?_⟩
    cases hresolve : t.resolve cursor with
    | error reason =>
        rw [available_of_error hresolve]
        exact ⟨List.nil_sublist _, List.nodup_nil, nofun⟩
    | ok r =>
        rw [available_of_ok hresolve, filter_isWord hsound, labels_filterMap]
        have hlabels : ((templates.filter fun u => (u.offer? ⟨t, r, force⟩).isSome).map
            name).Sublist (templates.map name) := List.filter_sublist.map name
        exact ⟨hlabels, hlabels.nodup hnodup, fun p => mem_filterMap_offer?⟩

/-- Two templates for any expression pass, and behind `a.` both are available in their order. With
the name of the first for both, the second offends. -/
theorem validate_agrees_pair :
    let a : Template := { blank with name := "not", body := "!$expr" }
    let b : Template := { blank with name := "par", body := "($expr)" }
    let tree := Tree.parse .statements (Bytes.ofString "a.x;")
    validate [a, b] = .ok [a, b] ∧ (manager [a, b]).registrations = [a.registration, b.registration] ∧
      ((manager [a, b]).available tree (some 8) false).map Proposal.label = ["not", "par"] ∧
      (∀ p ∈ (manager [a, b]).available tree (some 8) false, p.provider = p.label) ∧
      ∃ e, validate [a, { b with name := "not" }] = .error e ∧ e.index = 1 ∧
        ∀ i < e.index, ¬Offends [] [a, { b with name := "not" }] i := by
  intro a b tree
  have hrun : validate [a, b] = .ok [a, b] ∧
      ((manager [a, b]).available tree (some 8) false).map Proposal.label = ["not", "par"] ∧
      validate [a, { b with name := "not" }] = .error ⟨1, "not", .duplicateName⟩ := by
    decide +kernel
  obtain ⟨hok, hlabels, herror⟩ := hrun
  obtain ⟨hregistered, havailable⟩ := (validate_agrees [a, b]).2.2 hok
  obtain ⟨e, he, -, -, hbefore⟩ := (validate_agrees [a, { b with name := "not" }]).2.1
    (by rw [herror]; nofun)
  refine ⟨hok, hregistered, hlabels, (havailable tree (some 8) false).2.2, e, he, ?_, hbefore⟩
  rw [herror] at he
  cases he
  rfl

end Template

end DotCompletion
