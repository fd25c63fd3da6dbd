import DotCompletion.Grammar.Run

/-!
# What forms and rules read

A run of a rule has a budget, and the budget says nothing about what is read.
This module replaces runs by a relation between frames and cursors: `Form.Does`
describes a form, given what the rules it refers to do, and `Rule.Reads` holds
of a rule if some budget suffices.

Two principles carry all statements about parsing. What every rule does,
provided that the rules it refers to do it, is what every run does
(`Rule.Reads.induct`); and a rule reads what its form describes
(`Rule.Reads.intro`).
-/

namespace DotCompletion

/-- What each rule does to a frame and a cursor. -/
abbrev Behaviour := Rule → Frame → Cursor → Frame → Cursor → Prop

namespace Form

/-- The form leads from one frame and cursor to others, if rules do what `goto`
says. -/
def Does (goto : Behaviour) : Form → Frame → Cursor → Frame → Cursor → Prop
  | done, frame, c, frame', c' => frame' = frame ∧ c' = c
  | take kind, frame, c, frame', c' => frame' = frame ++ [.leaf kind c.next] ∧ c' = c.advance
  | missing problem, frame, c, frame', c' =>
    frame' = frame ++ [.missing c.behind ⟨problem, some c.next⟩] ∧ c' = c
  | splitAngle, frame, c, frame', c' => frame' = frame ∧ c' = c.splitAngle
  | discard kind, frame, c, frame', c' =>
    (frame' = frame.filter fun n => n.kind != kind) ∧ c' = c
  | seq first second, frame, c, frame', c' =>
    ∃ middle between, first.Does goto frame c middle between ∧
      second.Does goto middle between frame' c'
  | choose look yes no, frame, c, frame', c' =>
    (look.holds frame c.rest = true ∧ yes.Does goto frame c frame' c') ∨
      (look.holds frame c.rest = false ∧ no.Does goto frame c frame' c')
  | enclose label body, frame, c, frame', c' =>
    ∃ children, body.Does goto frame c children c' ∧
      frame' = [.around label.kind (label.diagnose c.next) c.next.span.start children]
  | within body, frame, c, frame', c' =>
    ∃ nodes, body.Does goto [] c nodes c' ∧ frame' = frame ++ nodes
  | orElse first second, frame, c, frame', c' =>
    ∃ nodes between, first.Does goto [] c nodes between ∧
      ((between.taken = c.taken ∧ second.Does goto frame between frame' c') ∨
        (between.taken ≠ c.taken ∧ frame' = frame ++ nodes ∧ c' = between))
  | ifStuck first second, frame, c, frame', c' =>
    ∃ middle between, first.Does goto frame c middle between ∧
      ((between.taken = c.taken ∧ second.Does goto middle between frame' c') ∨
        (between.taken ≠ c.taken ∧ frame' = middle ∧ c' = between))
  | rule name, frame, c, frame', c' => goto name frame c frame' c'

variable {goto : Behaviour} {frame frame' : Frame} {c c' : Cursor}

theorem Does.mono {goto' : Behaviour}
    (hmono : ∀ r frame c frame' c', goto r frame c frame' c' → goto' r frame c frame' c')
    {f : Form} (h : f.Does goto frame c frame' c') : f.Does goto' frame c frame' c' := by
  induction f generalizing frame c frame' c' with
  | done | take | missing | splitAngle | discard => exact h
  | seq first second ihfirst ihsecond =>
      obtain ⟨middle, between, hfirst, hsecond⟩ := h
      exact ⟨middle, between, ihfirst hfirst, ihsecond hsecond⟩
  | choose look yes no ihyes ihno =>
      exact h.imp (fun h => ⟨h.1, ihyes h.2⟩) (fun h => ⟨h.1, ihno h.2⟩)
  | enclose label body ih =>
      obtain ⟨children, hbody, hframe⟩ := h
      exact ⟨children, ih hbody, hframe⟩
  | within body ih =>
      obtain ⟨nodes, hbody, hframe⟩ := h
      exact ⟨nodes, ih hbody, hframe⟩
  | orElse first second ihfirst ihsecond | ifStuck first second ihfirst ihsecond =>
      obtain ⟨nodes, between, hfirst, hrest⟩ := h
      exact ⟨nodes, between, ihfirst hfirst, hrest.imp_left fun h => ⟨h.1, ihsecond h.2⟩⟩
  | rule name => exact hmono _ _ _ _ _ h

/-- A form is performed the way `Does` describes. -/
theorem perform_eq_some {run : Rule → Frame → Cursor → Option (Frame × Cursor)} {f : Form} :
    f.perform run frame c = some (frame', c') ↔
      f.Does (fun r frame c frame' c' => run r frame c = some (frame', c')) frame c frame' c' := by
  induction f generalizing frame c frame' c' with
  | done | take | missing | splitAngle | discard =>
      simp only [perform, Does, Option.some.injEq, Prod.mk.injEq, eq_comm]
  | seq first second ihfirst ihsecond =>
      simp only [perform, Does, ← ihfirst, ← ihsecond]
      constructor
      · intro h
        split at h
        next middle between hfirst => exact ⟨middle, between, hfirst, h⟩
        next => cases h
      · rintro ⟨middle, between, hfirst, hsecond⟩
        rw [hfirst]
        exact hsecond
  | choose look yes no ihyes ihno =>
      simp only [perform, Does, ← ihyes, ← ihno]
      cases look.holds frame c.rest <;> simp
  | enclose label body ih =>
      simp only [perform, Does, ← ih]
      constructor
      · intro h
        split at h
        next children behind hbody => cases h; exact ⟨children, hbody, rfl⟩
        next => cases h
      · rintro ⟨children, hbody, rfl⟩
        rw [hbody]
  | within body ih =>
      simp only [perform, Does, ← ih]
      constructor
      · intro h
        split at h
        next nodes behind hbody => cases h; exact ⟨nodes, hbody, rfl⟩
        next => cases h
      · rintro ⟨nodes, hbody, rfl⟩
        rw [hbody]
  | orElse first second ihfirst ihsecond | ifStuck first second ihfirst ihsecond =>
      simp only [perform, Does, ← ihfirst, ← ihsecond]
      constructor
      · intro h
        split at h
        next nodes between hfirst =>
          split at h
          next htaken => exact ⟨nodes, between, hfirst, .inl ⟨htaken, h⟩⟩
          next htaken => cases h; exact ⟨_, _, hfirst, .inr ⟨htaken, rfl, rfl⟩⟩
        next => cases h
      · rintro ⟨nodes, between, hfirst, ⟨htaken, hsecond⟩ | ⟨htaken, rfl, rfl⟩⟩
        · simp only [hfirst, htaken, if_true, hsecond]
        · simp only [hfirst, htaken, if_false]
  | rule name => rfl

end Form

namespace Rule

/-- More budget does not change the result of a run. -/
theorem run_mono {budget : Nat} {r : Rule} {frame frame' : Frame} {c c' : Cursor}
    (h : r.run budget frame c = some (frame', c')) (more : Nat) :
    r.run (budget + more) frame c = some (frame', c') := by
  induction budget generalizing r frame c frame' c' with
  | zero => cases h
  | succ budget ih =>
      rw [Nat.succ_add]
      rw [run, Form.perform_eq_some] at h ⊢
      exact h.mono fun _ _ _ _ _ => ih

/-- With enough budget the rule leads from one frame and cursor to others. -/
def Reads : Behaviour := fun r frame c frame' c' =>
  ∃ budget, r.run budget frame c = some (frame', c')

/-- The budget that a form needs is the largest that one of its rules needs. -/
theorem exists_budget {f : Form} {frame frame' : Frame} {c c' : Cursor}
    (h : f.Does Reads frame c frame' c') :
    ∃ budget, f.perform (run budget) frame c = some (frame', c') := by
  have raise : ∀ {f : Form} {budget more frame c frame' c'},
      f.perform (run budget) frame c = some (frame', c') →
      f.Does (fun r frame c frame' c' => r.run (budget + more) frame c = some (frame', c'))
        frame c frame' c' :=
    fun h => (Form.perform_eq_some.mp h).mono fun _ _ _ _ _ hrun => run_mono hrun _
  simp only [Form.perform_eq_some]
  induction f generalizing frame c frame' c' with
  | done | take | missing | splitAngle | discard => exact ⟨0, h⟩
  | seq first second ihfirst ihsecond =>
      obtain ⟨middle, between, hfirst, hsecond⟩ := h
      obtain ⟨m, hm⟩ := ihfirst hfirst
      obtain ⟨n, hn⟩ := ihsecond hsecond
      refine ⟨m + n, middle, between, raise (Form.perform_eq_some.mpr hm), ?_⟩
      rw [Nat.add_comm m n]
      exact raise (Form.perform_eq_some.mpr hn)
  | choose look yes no ihyes ihno =>
      rcases h with ⟨hlook, hyes⟩ | ⟨hlook, hno⟩
      · exact (ihyes hyes).imp fun _ h => .inl ⟨hlook, h⟩
      · exact (ihno hno).imp fun _ h => .inr ⟨hlook, h⟩
  | enclose label body ih =>
      obtain ⟨children, hbody, hframe⟩ := h
      exact (ih hbody).imp fun _ h => ⟨children, h, hframe⟩
  | within body ih =>
      obtain ⟨nodes, hbody, hframe⟩ := h
      exact (ih hbody).imp fun _ h => ⟨nodes, h, hframe⟩
  | orElse first second ihfirst ihsecond | ifStuck first second ihfirst ihsecond =>
      obtain ⟨nodes, between, hfirst, ⟨htaken, hsecond⟩ | hrest⟩ := h
      · obtain ⟨m, hm⟩ := ihfirst hfirst
        obtain ⟨n, hn⟩ := ihsecond hsecond
        refine ⟨m + n, nodes, between, raise (Form.perform_eq_some.mpr hm), .inl ⟨htaken, ?_⟩⟩
        rw [Nat.add_comm m n]
        exact raise (Form.perform_eq_some.mpr hn)
      · exact (ihfirst hfirst).imp fun _ h => ⟨nodes, between, h, .inr hrest⟩
  | rule name => exact h

namespace Reads

variable {r : Rule} {frame frame' : Frame} {c c' : Cursor}

/-- A rule reads what its form describes. -/
theorem intro (h : r.form.Does Reads frame c frame' c') : r.Reads frame c frame' c' :=
  (exists_budget h).imp' (· + 1) fun _ hrun => hrun

/-- What a form does if the rules in it do, every run of a rule does. -/
theorem induct (h : r.Reads frame c frame' c') (goto : Behaviour)
    (hclosed : ∀ r frame c frame' c', r.form.Does goto frame c frame' c' →
      goto r frame c frame' c') : goto r frame c frame' c' := by
  obtain ⟨budget, hrun⟩ := h
  induction budget generalizing r frame c frame' c' with
  | zero => cases hrun
  | succ budget ih =>
      rw [run, Form.perform_eq_some] at hrun
      exact hclosed _ _ _ _ _ (hrun.mono fun _ _ _ _ _ => ih)

/-- The same, with the runs of the rules in the form at hand. -/
theorem induct_reads (h : r.Reads frame c frame' c') (goto : Behaviour)
    (hclosed : ∀ r frame c frame' c',
      r.form.Does (fun r frame c frame' c' =>
        r.Reads frame c frame' c' ∧ goto r frame c frame' c') frame c frame' c' →
      goto r frame c frame' c') : goto r frame c frame' c' := by
  refine (h.induct (fun r frame c frame' c' =>
    r.Reads frame c frame' c' ∧ goto r frame c frame' c') ?_).2
  intro r frame c frame' c' hform
  exact ⟨intro (hform.mono fun _ _ _ _ _ => And.left), hclosed r frame c frame' c' hform⟩

/-- What a rule reads is described by its form. -/
theorem elim (h : r.Reads frame c frame' c') : r.form.Does Reads frame c frame' c' :=
  h.induct (fun r => r.form.Does Reads) fun _ _ _ _ _ hform =>
    hform.mono fun _ _ _ _ _ => intro

/-- A rule has at most one result. -/
theorem unique {frame₁ frame₂ : Frame} {c₁ c₂ : Cursor} (h₁ : r.Reads frame c frame₁ c₁)
    (h₂ : r.Reads frame c frame₂ c₂) : frame₁ = frame₂ ∧ c₁ = c₂ := by
  obtain ⟨m, hm⟩ := h₁
  obtain ⟨n, hn⟩ := h₂
  have heq := run_mono hm n
  rw [Nat.add_comm, run_mono hn m] at heq
  cases heq
  exact ⟨rfl, rfl⟩

end Reads

end Rule

end DotCompletion
