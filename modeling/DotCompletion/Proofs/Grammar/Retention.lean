import DotCompletion.Proofs.Grammar.Progress
import DotCompletion.Proofs.Node.Yield

/-!
# Which tokens are kept

A token that is taken becomes a leaf, and leaves are dropped in one place only:
type parameters in front of a field. So a form keeps the tokens of its frame and
the first token it takes unless it reads a member of a class in that frame, and
the rules for types keep the last token they take as well.
-/

namespace DotCompletion

open Cursor (Onward)

namespace Cursor

theorem next_mem_yieldAll {c : Cursor} (hsolid : c.Solid) (hrest : c.rest ≠ [])
    (kind : NodeKind) (frame : Frame) :
    c.next ∈ Node.yieldAll (frame ++ [Node.leaf kind c.next]) := by
  rw [Node.yieldAll_append, Node.yieldAll_cons, Node.yieldAll_nil, List.append_nil,
    Node.yield_leaf kind (hsolid.next hrest).kind]
  exact List.mem_append_right _ (List.mem_singleton_self _)

theorem splitAngle_taken (c : Cursor) : c.splitAngle.taken = c.taken := by
  unfold splitAngle
  split
  next => rfl
  next => split <;> rfl

/-- Nothing is taken at the end of the input. -/
theorem Onward.rest_ne_nil {c c' : Cursor} (h : Onward c c') (hsolid : c.Solid)
    (htaken : c'.taken ≠ c.taken) : c.rest ≠ [] := by
  intro hrest
  have hle := h.taken_le
  have hleft := h.moved_left hsolid (by omega)
  simp only [left, hrest, List.map_nil, List.sum_nil] at hleft
  omega

/-- The first token taken from the cursor on is in the frame. -/
def KeepsFirst (c : Cursor) (frame' : Frame) (c' : Cursor) : Prop :=
  c.Solid → c'.taken ≠ c.taken →
    ∃ v ∈ Node.yieldAll frame', v.span.start = c.next.span.start

/-- The last token taken from the cursor on is in the frame. -/
def KeepsLast (c : Cursor) (frame' : Frame) (c' : Cursor) : Prop :=
  c.Solid → c'.taken ≠ c.taken →
    ∃ v ∈ Node.yieldAll frame', c'.last = some v.span.stop

end Cursor

namespace Rule

/-- The rule keeps the tokens of its frame. -/
def isSteady : Rule → Bool
  | member => false
  | _ => true

/-- The rule keeps the first token it takes. -/
def isLeading : Rule → Bool
  | member | members => false
  | _ => true

/-- The rules for types and modifiers. -/
def isSmall : Rule → Bool
  | typeUse | typeName | typeArguments _ | annotations | annotationUse | qualifiedName _
  | nameRest _ | nested _ | dims | list _ .typeUse | skipTo _ | modifiers | modifierRest => true
  | _ => false

/-- What a rule keeps. -/
structure Retains (r : Rule) (frame : Frame) (c : Cursor) (frame' : Frame) (c' : Cursor) :
    Prop where
  onward : Onward c c'
  steady : r.isSteady = true → Node.yieldAll frame ⊆ Node.yieldAll frame'
  leading : r.isLeading = true → c.KeepsFirst frame' c'
  small : r.isSmall = true → c.KeepsLast frame' c'

end Rule

namespace Form

/-- The form keeps the tokens of its frame, by its looks. -/
def steady : Form → Bool
  | discard _ => false
  | seq first second | ifStuck first second | choose _ first second =>
    first.steady && second.steady
  | enclose _ body => body.steady
  | orElse _ second => second.steady
  | rule name => name.isSteady
  | _ => true

/-- The form takes one token. -/
def isTake : Form → Bool
  | take _ => true
  | _ => false

/-- The form keeps the first token it takes, by its looks. -/
def leading : Form → Bool
  | seq first second => second.steady && (first.isTake || (first.leading && second.leading))
  | choose _ first second | orElse first second | ifStuck first second =>
    first.leading && second.leading
  | enclose _ body | within body => body.leading
  | rule name => name.isLeading
  | _ => true

/-- The form keeps the last token it takes, by its looks. -/
def closing : Form → Bool
  | discard _ => false
  | seq first second | ifStuck first second => first.closing && second.closing && second.steady
  | choose _ first second | orElse first second => first.closing && second.closing
  | enclose _ body | within body => body.closing
  | rule name => name.isSmall
  | _ => true

variable {f : Form} {frame frame' : Frame} {c c' : Cursor}

theorem Does.steady (h : f.Does Rule.Retains frame c frame' c') (hf : f.steady = true) :
    Node.yieldAll frame ⊆ Node.yieldAll frame' := by
  induction f generalizing frame c frame' c' with
  | done | splitAngle =>
      obtain ⟨rfl, _⟩ := h
      exact List.Subset.refl _
  | take | missing =>
      obtain ⟨rfl, _⟩ := h
      rw [Node.yieldAll_append]
      exact List.subset_append_left _ _
  | discard => cases hf
  | seq first second ihfirst ihsecond =>
      simp only [Form.steady, Bool.and_eq_true] at hf
      obtain ⟨middle, between, hfirst, hsecond⟩ := h
      exact List.Subset.trans (ihfirst hfirst hf.1) (ihsecond hsecond hf.2)
  | choose look yes no ihyes ihno =>
      simp only [Form.steady, Bool.and_eq_true] at hf
      rcases h with ⟨_, hyes⟩ | ⟨_, hno⟩
      · exact ihyes hyes hf.1
      · exact ihno hno hf.2
  | enclose label body ih =>
      obtain ⟨children, hbody, rfl⟩ := h
      rw [Node.yieldAll_cons, Node.yield_around, Node.yieldAll_nil, List.append_nil]
      exact ih hbody hf
  | within body ih =>
      obtain ⟨nodes, hbody, rfl⟩ := h
      rw [Node.yieldAll_append]
      exact List.subset_append_left _ _
  | orElse first second ihfirst ihsecond =>
      obtain ⟨nodes, between, hfirst, ⟨_, hsecond⟩ | ⟨_, rfl, _⟩⟩ := h
      · exact ihsecond hsecond hf
      · rw [Node.yieldAll_append]
        exact List.subset_append_left _ _
  | ifStuck first second ihfirst ihsecond =>
      simp only [Form.steady, Bool.and_eq_true] at hf
      obtain ⟨middle, between, hfirst, ⟨_, hsecond⟩ | ⟨_, rfl, _⟩⟩ := h
      · exact List.Subset.trans (ihfirst hfirst hf.1) (ihsecond hsecond hf.2)
      · exact ihfirst hfirst hf.1
  | rule name => exact Rule.Retains.steady h hf

theorem Does.retains_onward (h : f.Does Rule.Retains frame c frame' c') : Onward c c' :=
  h.onward fun _ _ _ _ _ => Rule.Retains.onward

theorem keepsFirst_of_stuck {between : Cursor} (hfirst : Onward c between)
    (hstuck : between.taken = c.taken) (hkeeps : between.KeepsFirst frame' c') :
    c.KeepsFirst frame' c' := by
  intro hsolid htaken
  obtain ⟨v, hv, hstart⟩ := hkeeps (hfirst.solid hsolid) (by rw [hstuck]; exact htaken)
  exact ⟨v, hv, hstart.trans (hfirst.place hstuck).1⟩

/-- Of two parts, the first that takes a token keeps the first one. -/
theorem keepsFirst_of_parts {between : Cursor} {middle : Frame} (hfirst : Onward c between)
    (hkeeps : c.KeepsFirst middle between) (hsubset : Node.yieldAll middle ⊆ Node.yieldAll frame')
    (hkeeps' : between.KeepsFirst frame' c') : c.KeepsFirst frame' c' := by
  intro hsolid htaken
  by_cases hmoved : between.taken = c.taken
  · exact keepsFirst_of_stuck hfirst hmoved hkeeps' hsolid htaken
  · obtain ⟨v, hv, hstart⟩ := hkeeps hsolid hmoved
    exact ⟨v, hsubset hv, hstart⟩

/-- Of two parts, the last that takes a token keeps the last one. -/
theorem keepsLast_of_parts {between : Cursor} {middle : Frame} (hfirst : Onward c between)
    (hsecond : Onward between c') (hkeeps : c.KeepsLast middle between)
    (hsubset : Node.yieldAll middle ⊆ Node.yieldAll frame')
    (hkeeps' : between.KeepsLast frame' c') : c.KeepsLast frame' c' := by
  intro hsolid htaken
  by_cases hmoved : c'.taken = between.taken
  · obtain ⟨v, hv, hlast⟩ := hkeeps hsolid (by rw [← hmoved]; exact htaken)
    exact ⟨v, hsubset hv, (hsecond.place hmoved).2.trans hlast⟩
  · exact hkeeps' (hfirst.solid hsolid) hmoved

theorem Does.keepsFirst (h : f.Does Rule.Retains frame c frame' c') (hf : f.leading = true) :
    c.KeepsFirst frame' c' := by
  induction f generalizing frame c frame' c' with
  | done | missing | discard =>
      obtain ⟨_, rfl⟩ := h
      exact fun _ htaken => absurd rfl htaken
  | splitAngle =>
      obtain ⟨_, rfl⟩ := h
      exact fun _ htaken => absurd c.splitAngle_taken htaken
  | take kind =>
      have honward := h.retains_onward
      obtain ⟨rfl, rfl⟩ := h
      intro hsolid htaken
      exact ⟨c.next, c.next_mem_yieldAll hsolid (honward.rest_ne_nil hsolid htaken) _ _, rfl⟩
  | seq first second ihfirst ihsecond =>
      simp only [Form.leading, Bool.and_eq_true, Bool.or_eq_true] at hf
      have honward := h.retains_onward
      obtain ⟨middle, between, hfirst, hsecond⟩ := h
      have hsubset := hsecond.steady hf.1
      rcases hf.2 with htake | ⟨hleads, hleads'⟩
      · -- the first token is taken at once
        cases first with
        | take kind =>
            obtain ⟨rfl, rfl⟩ := hfirst
            intro hsolid htaken
            exact ⟨c.next, hsubset
              (c.next_mem_yieldAll hsolid (honward.rest_ne_nil hsolid htaken) _ _), rfl⟩
        | _ => cases htake
      · exact keepsFirst_of_parts hfirst.retains_onward (ihfirst hfirst hleads) hsubset
          (ihsecond hsecond hleads')
  | choose look yes no ihyes ihno =>
      simp only [Form.leading, Bool.and_eq_true] at hf
      rcases h with ⟨_, hyes⟩ | ⟨_, hno⟩
      · exact ihyes hyes hf.1
      · exact ihno hno hf.2
  | enclose label body ih =>
      obtain ⟨children, hbody, rfl⟩ := h
      intro hsolid htaken
      rw [Node.yieldAll_cons, Node.yield_around, Node.yieldAll_nil, List.append_nil]
      exact ih hbody hf hsolid htaken
  | within body ih =>
      obtain ⟨nodes, hbody, rfl⟩ := h
      intro hsolid htaken
      obtain ⟨v, hv, hstart⟩ := ih hbody hf hsolid htaken
      exact ⟨v, by rw [Node.yieldAll_append]; exact List.mem_append_right _ hv, hstart⟩
  | orElse first second ihfirst ihsecond =>
      simp only [Form.leading, Bool.and_eq_true] at hf
      obtain ⟨nodes, between, hfirst, ⟨hstuck, hsecond⟩ | ⟨_, rfl, rfl⟩⟩ := h
      · exact keepsFirst_of_stuck hfirst.retains_onward hstuck (ihsecond hsecond hf.2)
      · intro hsolid htaken
        obtain ⟨v, hv, hstart⟩ := ihfirst hfirst hf.1 hsolid htaken
        exact ⟨v, by rw [Node.yieldAll_append]; exact List.mem_append_right _ hv, hstart⟩
  | ifStuck first second ihfirst ihsecond =>
      simp only [Form.leading, Bool.and_eq_true] at hf
      obtain ⟨middle, between, hfirst, ⟨hstuck, hsecond⟩ | ⟨_, rfl, rfl⟩⟩ := h
      · exact keepsFirst_of_stuck hfirst.retains_onward hstuck (ihsecond hsecond hf.2)
      · exact ihfirst hfirst hf.1
  | rule name => exact Rule.Retains.leading h hf

theorem Does.keepsLast (h : f.Does Rule.Retains frame c frame' c') (hf : f.closing = true) :
    c.KeepsLast frame' c' := by
  induction f generalizing frame c frame' c' with
  | done | missing =>
      obtain ⟨_, rfl⟩ := h
      exact fun _ htaken => absurd rfl htaken
  | discard => cases hf
  | splitAngle =>
      obtain ⟨_, rfl⟩ := h
      exact fun _ htaken => absurd c.splitAngle_taken htaken
  | take kind =>
      have honward := h.retains_onward
      obtain ⟨rfl, rfl⟩ := h
      intro hsolid htaken
      have hrest := honward.rest_ne_nil hsolid htaken
      refine ⟨c.next, c.next_mem_yieldAll hsolid hrest _ _, ?_⟩
      · cases hc : c.rest with
        | nil => exact absurd hc hrest
        | cons t rest => simp [Cursor.advance, Cursor.next, hc]
  | seq first second ihfirst ihsecond =>
      simp only [Form.closing, Bool.and_eq_true] at hf
      obtain ⟨middle, between, hfirst, hsecond⟩ := h
      exact keepsLast_of_parts hfirst.retains_onward hsecond.retains_onward
        (ihfirst hfirst hf.1.1) (hsecond.steady hf.2) (ihsecond hsecond hf.1.2)
  | choose look yes no ihyes ihno =>
      simp only [Form.closing, Bool.and_eq_true] at hf
      rcases h with ⟨_, hyes⟩ | ⟨_, hno⟩
      · exact ihyes hyes hf.1
      · exact ihno hno hf.2
  | enclose label body ih =>
      obtain ⟨children, hbody, rfl⟩ := h
      intro hsolid htaken
      rw [Node.yieldAll_cons, Node.yield_around, Node.yieldAll_nil, List.append_nil]
      exact ih hbody hf hsolid htaken
  | within body ih =>
      obtain ⟨nodes, hbody, rfl⟩ := h
      intro hsolid htaken
      obtain ⟨v, hv, hlast⟩ := ih hbody hf hsolid htaken
      exact ⟨v, by rw [Node.yieldAll_append]; exact List.mem_append_right _ hv, hlast⟩
  | orElse first second ihfirst ihsecond =>
      simp only [Form.closing, Bool.and_eq_true] at hf
      obtain ⟨nodes, between, hfirst, ⟨hstuck, hsecond⟩ | ⟨_, rfl, rfl⟩⟩ := h
      · intro hsolid htaken
        exact ihsecond hsecond hf.2 (hfirst.retains_onward.solid hsolid)
          (by rw [hstuck]; exact htaken)
      · intro hsolid htaken
        obtain ⟨v, hv, hlast⟩ := ihfirst hfirst hf.1 hsolid htaken
        exact ⟨v, by rw [Node.yieldAll_append]; exact List.mem_append_right _ hv, hlast⟩
  | ifStuck first second ihfirst ihsecond =>
      simp only [Form.closing, Bool.and_eq_true] at hf
      obtain ⟨middle, between, hfirst, ⟨hstuck, hsecond⟩ | ⟨_, rfl, rfl⟩⟩ := h
      · intro hsolid htaken
        exact ihsecond hsecond hf.1.2 (hfirst.retains_onward.solid hsolid)
          (by rw [hstuck]; exact htaken)
      · exact ihfirst hfirst hf.1.1
  | rule name => exact Rule.Retains.small h hf

end Form

namespace Grammar

theorem steady_binaryOperators (least : Nat) (levels : List (Nat × List TokenKind)) :
    (binaryOperators least levels).steady = true ∧
      (binaryOperators least levels).leading = true := by
  induction levels with
  | nil => exact ⟨rfl, rfl⟩
  | cons level levels ih =>
      unfold binaryOperators
      split
      next =>
          refine ⟨?_, ?_⟩
          · change (true && (binaryOperators least levels).steady) = true
            rw [ih.1]
            rfl
          · change (true && (binaryOperators least levels).leading) = true
            rw [ih.2]
            rfl
      next => exact ih

end Grammar

namespace Rule

theorem steady_form (r : Rule) (h : r.isSteady = true) : r.form.steady = true := by
  cases r with
  | operators least =>
      change (true && (Grammar.binaryOperators least Grammar.binaryLevels).steady) = true
      rw [(Grammar.steady_binaryOperators least _).1]
      rfl
  | nested n => cases n <;> rfl
  | classBody b | localVarDecl b | nameRest b => cases b <;> rfl
  | member => cases h
  | _ => rfl

theorem leading_form (r : Rule) (h : r.isLeading = true) : r.form.leading = true := by
  cases r with
  | operators least =>
      change (true && (Grammar.binaryOperators least Grammar.binaryLevels).leading) = true
      rw [(Grammar.steady_binaryOperators least _).2]
      rfl
  | nested n => cases n <;> rfl
  | classBody b | localVarDecl b | nameRest b => cases b <;> rfl
  | list close item => cases item <;> rfl
  | member | members => cases h
  | _ => rfl

theorem closing_form (r : Rule) (h : r.isSmall = true) : r.form.closing = true := by
  cases r with
  | nested n => cases n <;> rfl
  | nameRest b => cases b <;> rfl
  | list close item =>
      cases item with
      | typeUse => rfl
      | _ => cases h
  | typeUse | typeName | typeArguments | annotations | annotationUse | qualifiedName | dims
  | skipTo | modifiers | modifierRest => rfl
  | _ => cases h

/-- What every rule keeps. -/
theorem Reads.retains {r : Rule} {frame frame' : Frame} {c c' : Cursor}
    (h : r.Reads frame c frame' c') : r.Retains frame c frame' c' := by
  refine h.induct Rule.Retains ?_
  intro r frame c frame' c' hform
  exact
    { onward := hform.retains_onward
      steady := fun hr => hform.steady (r.steady_form hr)
      leading := fun hr => hform.keepsFirst (r.leading_form hr)
      small := fun hr => hform.keepsLast (r.closing_form hr) }

end Rule

/-! ## The nodes of the frame -/

namespace Rule

/-- The rule only adds to its frame. -/
def appends : Rule → Bool
  | qualifiedName _ | nameRest _ | nested _ | dims | statements _ => true
  | _ => false

end Rule

namespace Form

/-- The form only adds to its frame, by its looks. -/
def appends : Form → Bool
  | discard _ | enclose _ _ => false
  | seq first second | ifStuck first second | choose _ first second =>
    first.appends && second.appends
  | orElse _ second => second.appends
  | rule name => name.appends
  | _ => true

variable {f : Form} {frame frame' : Frame} {c c' : Cursor}

/-- The nodes of the frame are still there, perhaps inside of others. -/
theorem Does.every_of_steady {P : Node → Prop}
    (h : f.Does (fun r frame _ frame' _ => r.isSteady = true →
      (∀ n ∈ frame', n.Every P) → ∀ n ∈ frame, n.Every P) frame c frame' c')
    (hf : f.steady = true) (hall : ∀ n ∈ frame', n.Every P) : ∀ n ∈ frame, n.Every P := by
  induction f generalizing frame c frame' c' with
  | done | splitAngle =>
      obtain ⟨rfl, _⟩ := h
      exact hall
  | take | missing =>
      obtain ⟨rfl, _⟩ := h
      exact fun n hn => hall n (List.mem_append_left _ hn)
  | discard => cases hf
  | seq first second ihfirst ihsecond =>
      simp only [Form.steady, Bool.and_eq_true] at hf
      obtain ⟨middle, between, hfirst, hsecond⟩ := h
      exact ihfirst hfirst hf.1 (ihsecond hsecond hf.2 hall)
  | choose look yes no ihyes ihno =>
      simp only [Form.steady, Bool.and_eq_true] at hf
      rcases h with ⟨_, hyes⟩ | ⟨_, hno⟩
      · exact ihyes hyes hf.1 hall
      · exact ihno hno hf.2 hall
  | enclose label body ih =>
      obtain ⟨children, hbody, rfl⟩ := h
      exact ih hbody hf fun n hn => (hall _ (List.mem_singleton_self _)).child hn
  | within body ih =>
      obtain ⟨nodes, hbody, rfl⟩ := h
      exact fun n hn => hall n (List.mem_append_left _ hn)
  | orElse first second ihfirst ihsecond =>
      obtain ⟨nodes, between, hfirst, ⟨_, hsecond⟩ | ⟨_, rfl, _⟩⟩ := h
      · exact ihsecond hsecond hf hall
      · exact fun n hn => hall n (List.mem_append_left _ hn)
  | ifStuck first second ihfirst ihsecond =>
      simp only [Form.steady, Bool.and_eq_true] at hf
      obtain ⟨middle, between, hfirst, ⟨_, hsecond⟩ | ⟨_, rfl, _⟩⟩ := h
      · exact ihfirst hfirst hf.1 (ihsecond hsecond hf.2 hall)
      · exact ihfirst hfirst hf.1 hall
  | rule name => exact h hf hall

theorem Does.exists_append
    (h : f.Does (fun r frame _ frame' _ => r.appends = true → ∃ more, frame' = frame ++ more)
      frame c frame' c') (hf : f.appends = true) : ∃ more, frame' = frame ++ more := by
  induction f generalizing frame c frame' c' with
  | done | splitAngle =>
      obtain ⟨rfl, _⟩ := h
      exact ⟨[], (List.append_nil _).symm⟩
  | take | missing =>
      obtain ⟨rfl, _⟩ := h
      exact ⟨_, rfl⟩
  | discard | enclose => cases hf
  | seq first second ihfirst ihsecond =>
      simp only [Form.appends, Bool.and_eq_true] at hf
      obtain ⟨middle, between, hfirst, hsecond⟩ := h
      obtain ⟨more, rfl⟩ := ihfirst hfirst hf.1
      obtain ⟨more', rfl⟩ := ihsecond hsecond hf.2
      exact ⟨more ++ more', List.append_assoc _ _ _⟩
  | choose look yes no ihyes ihno =>
      simp only [Form.appends, Bool.and_eq_true] at hf
      rcases h with ⟨_, hyes⟩ | ⟨_, hno⟩
      · exact ihyes hyes hf.1
      · exact ihno hno hf.2
  | within body ih =>
      obtain ⟨nodes, _, rfl⟩ := h
      exact ⟨nodes, rfl⟩
  | orElse first second ihfirst ihsecond =>
      obtain ⟨nodes, between, hfirst, ⟨_, hsecond⟩ | ⟨_, rfl, _⟩⟩ := h
      · exact ihsecond hsecond hf
      · exact ⟨nodes, rfl⟩
  | ifStuck first second ihfirst ihsecond =>
      simp only [Form.appends, Bool.and_eq_true] at hf
      obtain ⟨middle, between, hfirst, ⟨_, hsecond⟩ | ⟨_, rfl, _⟩⟩ := h
      · obtain ⟨more, rfl⟩ := ihfirst hfirst hf.1
        obtain ⟨more', rfl⟩ := ihsecond hsecond hf.2
        exact ⟨more ++ more', List.append_assoc _ _ _⟩
      · exact ihfirst hfirst hf.1
  | rule name => exact h hf

end Form

namespace Rule

variable {r : Rule} {frame frame' : Frame} {c c' : Cursor}

theorem appends_form (r : Rule) (h : r.appends = true) : r.form.appends = true := by
  cases r with
  | nested n => cases n <;> rfl
  | qualifiedName b | nameRest b => cases b <;> rfl
  | dims | statements _ => rfl
  | _ => cases h

theorem Reads.every_of_steady {P : Node → Prop} (h : r.Reads frame c frame' c')
    (hr : r.isSteady = true) (hall : ∀ n ∈ frame', n.Every P) : ∀ n ∈ frame, n.Every P :=
  h.induct (fun r frame _ frame' _ => r.isSteady = true →
    (∀ n ∈ frame', n.Every P) → ∀ n ∈ frame, n.Every P)
    (fun r _ _ _ _ hform hr => hform.every_of_steady (r.steady_form hr)) hr hall

theorem Reads.exists_append (h : r.Reads frame c frame' c') (hr : r.appends = true) :
    ∃ more, frame' = frame ++ more :=
  h.induct (fun r frame _ frame' _ => r.appends = true → ∃ more, frame' = frame ++ more)
    (fun r _ _ _ _ hform hr => hform.exists_append (r.appends_form hr)) hr

end Rule

end DotCompletion
