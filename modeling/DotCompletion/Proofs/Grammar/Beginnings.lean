import DotCompletion.Proofs.Grammar.Layout
import DotCompletion.Proofs.Grammar.Openings

/-!
# Where expressions begin

An expression begins with one of its own tokens, also in broken code
(`Entry.parse_begins`). A node that goes on from an operand has the operand's
beginning, and an operand is missing only in front of a token that ends
expressions, behind which no expression goes on.

The argument follows a frame through a form by what is known of its beginning.
-/

namespace DotCompletion

open Skim (kindAt)

namespace Node

/-- The node begins where one of its tokens does. -/
def Headed (n : Node) : Prop := ∃ v ∈ n.yield, v.lo = n.lo

/-- The node, if it is an expression, begins where one of its tokens does. -/
def Begins (n : Node) : Prop := n.kind.isExpression = true → n.Headed

end Node

namespace Frame

variable {frame nodes : Frame} {c : Cursor}

/-- The frame begins where one of its tokens does. -/
def Headed (frame : Frame) : Prop := ∃ n ∈ frame.head?, ∃ v ∈ Node.yieldAll frame, v.lo = n.lo

theorem Headed.append (h : frame.Headed) (nodes : Frame) : Headed (frame ++ nodes) := by
  obtain ⟨n, hn, v, hv, hlo⟩ := h
  refine ⟨n, ?_, v, ?_, hlo⟩
  · rw [List.head?_append, Option.mem_def.mp hn]
    rfl
  · rw [Node.yieldAll_append]
    exact List.mem_append_left _ hv

theorem Headed.node {n : Node} (h : n.Headed) : Headed [n] := by
  obtain ⟨v, hv, hlo⟩ := h
  exact ⟨n, rfl, v, by simpa using hv, hlo⟩

theorem Headed.around (h : frame.Headed) (kind : NodeKind) (error : Option Diagnostic)
    (p : Position) : (Node.around kind error p frame).Headed := by
  obtain ⟨n, hn, v, hv, hlo⟩ := h
  refine ⟨v, by rwa [Node.yield_around], ?_⟩
  cases frame with
  | nil => cases hn
  | cons first rest =>
      cases hn
      exact hlo

end Frame

theorem Node.headed_leaf {c : Cursor} (hproper : c.Proper) (hrest : c.rest ≠ []) (kind : NodeKind) :
    (Node.leaf kind c.next).Headed :=
  ⟨c.next, by simp [Node.yield_leaf kind (hproper.solid.next hrest).kind], rfl⟩

/-! ## What is known of the next token -/

/-- What is known of the token in front of the cursor. -/
inductive Glimpse where
  | any
  /-- There is one. -/
  | token
  | among (kinds : List TokenKind)

namespace Glimpse

def Holds (c : Cursor) : Glimpse → Prop
  | any => True
  | token => c.rest ≠ []
  | among kinds => kindAt c.rest 0 ∈ kinds

/-- There is a token. -/
def isToken : Glimpse → Bool
  | any => false
  | token => true
  | among kinds => !kinds.contains .eof

/-- An expression may be missing here. -/
def isEnd : Glimpse → Bool
  | among kinds => kinds.all Grammar.expressionEnds.contains
  | _ => false

/-- No expression is missing here. -/
def isClear : Glimpse → Bool
  | among kinds => kinds.all fun k => !Grammar.expressionEnds.contains k
  | _ => false

/-- What is seen if the condition is met. -/
def yes (glimpse : Glimpse) (look : Look) : Glimpse :=
  match look.kinds, look with
  | some kinds, _ => among kinds
  | none, .ahead .lambda => token
  | none, _ => glimpse

/-- What is seen if the condition is not met. -/
def no (glimpse : Glimpse) : Look → Glimpse
  | .next kinds => if kinds.contains .eof then token else glimpse
  | _ => glimpse

variable {glimpse : Glimpse} {frame : Frame} {c : Cursor} {look : Look}

theorem Holds.rest_ne_nil (h : glimpse.Holds c) (hglimpse : glimpse.isToken = true) :
    c.rest ≠ [] := by
  cases glimpse with
  | any => cases hglimpse
  | token => exact h
  | among kinds =>
      intro hrest
      have hmem : kindAt c.rest 0 ∈ kinds := h
      rw [hrest] at hmem
      simp [isToken, show TokenKind.eof ∈ kinds from hmem] at hglimpse

theorem Holds.mem_expressionEnds (h : glimpse.Holds c) (hglimpse : glimpse.isEnd = true) :
    kindAt c.rest 0 ∈ Grammar.expressionEnds := by
  cases glimpse with
  | any | token => cases hglimpse
  | among kinds => simpa using List.all_eq_true.mp hglimpse _ h

theorem Holds.not_mem_expressionEnds (h : glimpse.Holds c) (hglimpse : glimpse.isClear = true) :
    kindAt c.rest 0 ∉ Grammar.expressionEnds := by
  cases glimpse with
  | any | token => cases hglimpse
  | among kinds => simpa using List.all_eq_true.mp hglimpse _ h

theorem Holds.yes (h : glimpse.Holds c) (hlook : look.holds frame c.rest = true) :
    (glimpse.yes look).Holds c := by
  unfold Glimpse.yes
  split
  next kinds hkinds => exact Look.kindAt_mem hlook kinds hkinds
  next =>
      intro hrest
      rw [hrest] at hlook
      cases hlook
  next => exact h

theorem Holds.no (h : glimpse.Holds c) (hlook : look.holds frame c.rest = false) :
    (glimpse.no look).Holds c := by
  unfold Glimpse.no
  split
  next kinds =>
      split
      next heof =>
          intro hrest
          rw [hrest] at hlook
          cases hlook.symm.trans heof
      next => exact h
  next => exact h

end Glimpse

/-! ## What is known of the beginning -/

/-- What is known of the beginning of a frame. -/
inductive Onset where
  | loose
  /-- The frame begins with a token if it has any node. -/
  | poised
  /-- The frame begins with a token, unless the next token ends expressions. -/
  | ready
  | begun
deriving DecidableEq

namespace Onset

def Holds (frame : Frame) (c : Cursor) : Onset → Prop
  | loose => True
  | poised => frame = [] ∨ frame.Headed
  | ready => frame.Headed ∨ kindAt c.rest 0 ∈ Grammar.expressionEnds
  | begun => frame.Headed

/-- What is known if one of two things is. -/
def meet : Onset → Onset → Onset
  | begun, t => t
  | s, begun => s
  | s, t => if s = t then s else loose

/-- What is known in front of a token that can be seen. -/
def focus (glimpse : Glimpse) : Onset → Onset
  | ready => if glimpse.isClear then begun else ready
  | s => s

/-- What is known behind a form that takes nothing. -/
def rest (glimpse : Glimpse) : Onset → Onset
  | poised => if glimpse.isEnd then ready else poised
  | s => s

/-- What is known of a frame behind which nodes are put, by what is known of the
nodes. -/
def follow : Onset → Onset → Onset
  | begun, _ => begun
  | poised, t => t
  | _, _ => loose

/-- What is known where only the frame counts. -/
def still : Onset → Onset
  | ready => loose
  | s => s

/-- What is known of a frame with one node that is not. -/
def closed : Onset → Onset
  | poised => loose
  | s => s

variable {s t : Onset} {glimpse : Glimpse} {frame nodes : Frame} {c c' : Cursor}

theorem Holds.of_headed (h : frame.Headed) (s : Onset) : s.Holds frame c := by
  cases s with
  | loose => trivial
  | poised => exact .inr h
  | ready => exact .inl h
  | begun => exact h

theorem Holds.meet_left (h : s.Holds frame c) (t : Onset) : (s.meet t).Holds frame c := by
  cases s <;> cases t <;> first | exact h | trivial | exact .of_headed h _

theorem Holds.meet_right (h : t.Holds frame c) (s : Onset) : (s.meet t).Holds frame c := by
  cases s <;> cases t <;> first | exact h | trivial | exact .of_headed h _

theorem Holds.focus (h : s.Holds frame c) (hglimpse : glimpse.Holds c) :
    (s.focus glimpse).Holds frame c := by
  cases s with
  | ready =>
      rw [Onset.focus]
      split
      next hclear => exact h.resolve_right (hglimpse.not_mem_expressionEnds hclear)
      next => exact h
  | _ => exact h

theorem Holds.rest (h : s.Holds frame c) (hglimpse : glimpse.Holds c) :
    (s.rest glimpse).Holds frame c := by
  cases s with
  | poised =>
      rw [Onset.rest]
      split
      next hend => exact .inr (hglimpse.mem_expressionEnds hend)
      next => exact h
  | _ => exact h

theorem Holds.follow (h : s.Holds frame c) (h' : t.Holds nodes c') :
    (s.follow t).Holds (frame ++ nodes) c' := by
  cases s with
  | begun => exact .of_headed (Frame.Headed.append h nodes) _
  | poised =>
      rcases h with rfl | h
      · exact h'
      · exact .of_headed (h.append nodes) _
  | _ => trivial

/-- The frame is the same in front of another token. -/
theorem Holds.still (h : s.Holds frame c) : s.still.Holds frame c' := by
  cases s with
  | ready => trivial
  | _ => exact h

theorem Holds.closed_append (h : s.Holds frame c) (nodes : Frame) :
    s.closed.Holds (frame ++ nodes) c := by
  cases s with
  | loose | poised => trivial
  | ready => exact h.imp_left fun h => h.append nodes
  | begun => exact Frame.Headed.append h nodes

theorem Holds.around (h : s.Holds frame c) (kind : NodeKind) (error : Option Diagnostic)
    (p : Position) : s.closed.Holds [.around kind error p frame] c := by
  cases s with
  | loose | poised => trivial
  | ready => exact h.imp_left fun h => .node (h.around kind error p)
  | begun => exact .node (Frame.Headed.around h kind error p)

end Onset

namespace Rule

/-- What has to be known of the frame in front of a rule: an operand begins it,
and what goes on from an operand finds one. -/
def onsetBefore : Rule → Onset
  | operators _ | suffixes => .ready
  | methodRef => .begun
  | expression | ternary | binary _ | unary | primary | initializer | caseLabel | creation
  | lambda | arrayInit => .poised
  | switch kind => if kind.isExpression then .poised else .loose
  | _ => .loose

/-- The rules that take the next token without a look at it. -/
def trusts : Rule → Bool
  | creation | lambda | arrayInit => true
  | switch kind => kind.isExpression
  | _ => false

/-- What is known of the frame behind a rule. -/
def onsetBehind : Rule → Onset
  | ternary | binary _ | unary | primary | operators _ | suffixes => .ready
  | creation => .begun
  | switch kind => if kind.isExpression then .begun else .loose
  | _ => .loose

/-- The rules that make no expression of a type. -/
def isSound : Rule → Bool
  | typeArguments kind => !kind.isExpression
  | _ => true

/-- The tokens in front of which a rule begins an empty frame with a token. -/
def heads : Rule → List TokenKind
  | typeUse => .kwVoid :: TokenKind.primitives
  | _ => []

/-- The rule can be referred to. -/
def admits (r : Rule) (glimpse : Glimpse) (s : Onset) : Bool :=
  r.isSound && (s.meet r.onsetBefore == r.onsetBefore) && (!r.trusts || glimpse.isToken)

/-- What is known behind a rule. -/
def behind (r : Rule) (glimpse : Glimpse) : Onset → Onset
  | .begun => if r.isSteady then .begun else .loose
  | s =>
    match s, glimpse with
    | .poised, .among kinds =>
      if r.isSteady && kinds.all r.heads.contains then .begun else r.onsetBehind
    | _, _ => r.onsetBehind

end Rule

namespace Form

/-- What is known of the beginning of the frame behind a form. Fails where an
expression might be made that does not begin with a token. -/
def onset (glimpse : Glimpse) : Form → Onset → Option Onset
  | done, s => some (s.rest glimpse)
  | missing _, s => some (s.rest glimpse).closed
  | splitAngle, s => some s.still
  | discard _, _ => some .loose
  | take kind, s =>
    if kind.isExpression && !glimpse.isToken then none
    else some (s.follow (if glimpse.isToken then .begun else .loose))
  | seq first second, s => (first.onset glimpse s).bind (second.onset .any)
  | choose look yes no, s =>
    (yes.onset (glimpse.yes look) (s.focus (glimpse.yes look))).bind fun t =>
      (no.onset (glimpse.no look) s).map t.meet
  | enclose label body, s =>
    if body.isNameAlone && glimpse.isToken && (s == .poised) then some .begun
    else (body.onset glimpse s).bind fun t =>
      if label.kind.isExpression && (t != .begun) then none else some t.closed
  | within body, s => (body.onset glimpse .poised).map s.follow
  | orElse first second, s =>
    (first.onset glimpse .poised).bind fun t => (second.onset .any s.still).map (s.follow t).meet
  | ifStuck first second, s =>
    (first.onset glimpse s).bind fun t => (second.onset .any t).map t.meet
  | rule r, s => if r.admits glimpse s then some (r.behind glimpse s) else none

end Form

namespace Grammar

theorem onset_binaryOperators (least : Nat) {levels : List (Nat × List TokenKind)}
    (h : ∀ level ∈ levels, (Glimpse.among level.2).isClear = true) (glimpse : Glimpse) :
    (binaryOperators least levels).onset glimpse .ready = some .ready := by
  induction levels generalizing glimpse with
  | nil => rfl
  | cons level levels ih =>
      obtain ⟨level, kinds⟩ := level
      have ih := ih fun level hlevel => h level (List.mem_cons_of_mem _ hlevel)
      have hclear : Onset.ready.focus (.among kinds) = .begun :=
        if_pos (h (level, kinds) List.mem_cons_self)
      unfold binaryOperators
      split
      next =>
          rw [Form.onset, show glimpse.yes (.next kinds) = .among kinds from rfl, hclear, ih]
          rfl
      next => exact ih glimpse

end Grammar

namespace Rule

open Form Grammar

theorem onset_form (r : Rule) (h : r.isSound = true) :
    (r.form.onset (if r.trusts then .token else .any) r.onsetBefore).map r.onsetBehind.meet =
      some r.onsetBehind := by
  cases r with
  | operators least =>
      have hclear : ∀ level ∈ binaryLevels, (Glimpse.among level.2).isClear = true := by decide
      have hlevels := onset_binaryOperators least hclear
      by_cases hleast : least ≤ instanceofLevel
      all_goals
        simp only [form, hleast, if_true, if_false, trusts, onsetBefore, onsetBehind,
          Bool.false_eq_true, onset, hlevels]
        rfl
  | typeArguments kind =>
      have hkind : kind.isExpression = false := by simpa [isSound] using h
      simp only [form, node, token, onset, Label.kind, hkind]
      rfl
  | switch kind =>
      cases hkind : kind.isExpression
      all_goals
        simp only [form, node, token, onset, Label.kind, trusts, onsetBefore, onsetBehind, hkind]
        rfl
  | nested n => cases n <;> rfl
  | classBody b | localVarDecl b | nameRest b => cases b <;> rfl
  | list close item => cases item <;> rfl
  | _ => rfl

end Rule

/-! ## Forms and rules -/

/-- A rule that keeps the tokens of its frame keeps its beginning. -/
def KeepsHead : Behaviour := fun r frame _ frame' _ =>
  r.isSteady = true → frame.Headed → frame'.Headed

theorem Form.Does.headed {f : Form} {frame frame' : Frame} {c c' : Cursor}
    (h : f.Does KeepsHead frame c frame' c') (hf : f.steady = true) (hframe : frame.Headed) :
    frame'.Headed := by
  induction f generalizing frame c frame' c' with
  | done | splitAngle =>
      obtain ⟨rfl, _⟩ := h
      exact hframe
  | take | missing =>
      obtain ⟨rfl, _⟩ := h
      exact hframe.append _
  | discard => cases hf
  | seq first second ihfirst ihsecond =>
      simp only [Form.steady, Bool.and_eq_true] at hf
      obtain ⟨middle, between, hfirst, hsecond⟩ := h
      exact ihsecond hsecond hf.2 (ihfirst hfirst hf.1 hframe)
  | choose look yes no ihyes ihno =>
      simp only [Form.steady, Bool.and_eq_true] at hf
      rcases h with ⟨_, hyes⟩ | ⟨_, hno⟩
      · exact ihyes hyes hf.1 hframe
      · exact ihno hno hf.2 hframe
  | enclose label body ih =>
      obtain ⟨children, hbody, rfl⟩ := h
      exact .node ((ih hbody hf hframe).around _ _ _)
  | within body ih =>
      obtain ⟨nodes, _, rfl⟩ := h
      exact hframe.append nodes
  | orElse first second ihfirst ihsecond =>
      obtain ⟨nodes, between, _, ⟨_, hsecond⟩ | ⟨_, rfl, _⟩⟩ := h
      · exact ihsecond hsecond hf hframe
      · exact hframe.append nodes
  | ifStuck first second ihfirst ihsecond =>
      simp only [Form.steady, Bool.and_eq_true] at hf
      obtain ⟨middle, between, hfirst, ⟨_, hsecond⟩ | ⟨_, rfl, _⟩⟩ := h
      · exact ihsecond hsecond hf.2 (ihfirst hfirst hf.1 hframe)
      · exact ihfirst hfirst hf.1 hframe
  | rule name => exact h hf hframe

theorem Rule.Reads.headed {r : Rule} {frame frame' : Frame} {c c' : Cursor}
    (h : r.Reads frame c frame' c') (hr : r.isSteady = true) (hframe : frame.Headed) :
    frame'.Headed :=
  h.induct KeepsHead (fun r _ _ _ _ hform hr => hform.headed (r.steady_form hr)) hr hframe

/-- All expressions of the frame and below begin with a token. -/
def Frame.AllBegin (frame : Frame) : Prop := Node.EveryIn Node.Begins frame

/-- What a rule makes of the beginning of a frame. -/
structure Rule.Founds (r : Rule) (frame : Frame) (c : Cursor) (frame' : Frame) (c' : Cursor) :
    Prop where
  reads : r.Reads frame c frame' c'
  founds : c.Proper → r.isSound = true → (r.trusts = true → c.rest ≠ []) →
    r.onsetBefore.Holds frame c → frame.AllBegin → frame'.AllBegin ∧ r.onsetBehind.Holds frame' c'
  heads : c.Proper → kindAt c.rest 0 ∈ r.heads → frame = [] → frame'.Headed

/-- What is known behind a rule is true. -/
theorem Rule.Founds.behind {r : Rule} {frame frame' : Frame} {c c' : Cursor}
    (h : r.Founds frame c frame' c') (hproper : c.Proper) {glimpse : Glimpse} {s : Onset}
    (hglimpse : glimpse.Holds c) (hs : s.Holds frame c) (hexit : r.onsetBehind.Holds frame' c') :
    (r.behind glimpse s).Holds frame' c' := by
  cases s with
  | begun =>
      rw [Rule.behind]
      split
      next hsteady => exact h.reads.headed hsteady hs
      next => trivial
  | poised =>
      cases glimpse with
      | among kinds =>
          rw [Rule.behind]
          split
          next hheads =>
              rw [Bool.and_eq_true] at hheads
              have hkind := List.all_eq_true.mp hheads.2 _ hglimpse
              rcases hs with rfl | hs
              · exact h.heads hproper (by simpa using hkind) rfl
              · exact h.reads.headed hheads.1 hs
          next => exact hexit
      | _ => exact hexit
  | _ => exact hexit

theorem Frame.AllBegin.around {frame : Frame} {kind : NodeKind} {error : Option Diagnostic}
    {p : Position} (hown : kind.isExpression = true → frame.Headed) (h : frame.AllBegin) :
    AllBegin [.around kind error p frame] :=
  Node.EveryIn.around (fun hkind => (hown hkind).around kind error p) h

namespace Form

variable {f : Form} {frame frame' : Frame} {c c' : Cursor}

/-- A list of type arguments without any stands where the name behind it begins. -/
theorem Does.headed_of_isNameAlone {goto : Behaviour} (h : f.Does goto frame c frame' c')
    (hf : f.isNameAlone = true) (hproper : c.Proper) (hrest : c.rest ≠ []) :
    ∃ nodes, frame' = frame ++ nodes ∧ nodes.Headed ∧ nodes.AllBegin := by
  unfold isNameAlone at hf
  split at hf
  next =>
      obtain ⟨_, c, ⟨_, ⟨_, ⟨rfl, rfl⟩, rfl⟩, rfl⟩, rfl, _⟩ := h
      refine ⟨_, List.append_assoc _ _ _, ⟨_, rfl, c.next, ?_, rfl⟩,
        .append (.around nofun .nil) (.single (.leaf nofun))⟩
      exact c.next_mem_yieldAll hproper.solid hrest .identifier _
  next => cases hf

theorem Does.founds_onward (h : f.Does Rule.Founds frame c frame' c') : Cursor.Onward c c' :=
  h.onward fun _ _ _ _ _ h => h.reads.onward

theorem Does.founds (h : f.Does Rule.Founds frame c frame' c') {glimpse : Glimpse} {s t : Onset}
    (hf : f.onset glimpse s = some t) (hproper : c.Proper) (hglimpse : glimpse.Holds c)
    (hs : s.Holds frame c) (hall : frame.AllBegin) : frame'.AllBegin ∧ t.Holds frame' c' := by
  induction f generalizing frame c frame' c' glimpse s t with
  | done =>
      obtain ⟨rfl, rfl⟩ := h
      cases hf
      exact ⟨hall, hs.rest hglimpse⟩
  | missing =>
      obtain ⟨rfl, rfl⟩ := h
      cases hf
      exact ⟨hall.append (.single (.missing nofun)), (hs.rest hglimpse).closed_append _⟩
  | splitAngle =>
      obtain ⟨rfl, rfl⟩ := h
      cases hf
      exact ⟨hall, hs.still⟩
  | discard =>
      obtain ⟨rfl, rfl⟩ := h
      cases hf
      exact ⟨hall.filter _, trivial⟩
  | take kind =>
      obtain ⟨rfl, rfl⟩ := h
      rw [onset] at hf
      split at hf
      next => cases hf
      next hkind =>
          cases hf
          have hheaded (htoken : glimpse.isToken = true) : (Node.leaf kind c.next).Headed :=
            Node.headed_leaf hproper (hglimpse.rest_ne_nil htoken) kind
          refine ⟨hall.append (.single (.leaf fun hexpression => hheaded ?_)), hs.follow ?_⟩
          · simpa [show kind.isExpression = true from hexpression] using hkind
          · split
            next htoken => exact .node (hheaded htoken)
            next => trivial
  | seq first second ihfirst ihsecond =>
      obtain ⟨middle, between, hfirst, hsecond⟩ := h
      obtain ⟨t', ht', ht⟩ := Option.bind_eq_some_iff.mp hf
      obtain ⟨hall', hmiddle⟩ := ihfirst hfirst ht' hproper hglimpse hs hall
      exact ihsecond hsecond ht (hfirst.founds_onward.proper hproper) trivial hmiddle hall'
  | choose look yes no ihyes ihno =>
      obtain ⟨t', ht', hrest⟩ := Option.bind_eq_some_iff.mp hf
      obtain ⟨t'', ht'', rfl⟩ := Option.map_eq_some_iff.mp hrest
      rcases h with ⟨hlook, hyes⟩ | ⟨hlook, hno⟩
      · have hglimpse' := hglimpse.yes hlook
        exact (ihyes hyes ht' hproper hglimpse' (hs.focus hglimpse') hall).imp_right
          fun h => h.meet_left _
      · exact (ihno hno ht'' hproper (hglimpse.no hlook) hs hall).imp_right fun h => h.meet_right _
  | enclose label body ih =>
      obtain ⟨children, hbody, rfl⟩ := h
      rw [onset] at hf
      split at hf
      next hname =>
          cases hf
          simp only [Bool.and_eq_true, beq_iff_eq] at hname
          obtain ⟨⟨hname, htoken⟩, rfl⟩ := hname
          obtain ⟨nodes, rfl, hnodes, hall'⟩ :=
            hbody.headed_of_isNameAlone hname hproper (hglimpse.rest_ne_nil htoken)
          have hheaded : Frame.Headed (frame ++ nodes) := by
            rcases hs with rfl | hframe
            · exact hnodes
            · exact hframe.append nodes
          exact ⟨.around (fun _ => hheaded) (hall.append hall'), .node (hheaded.around _ _ _)⟩
      next =>
          obtain ⟨t', ht', ht⟩ := Option.bind_eq_some_iff.mp hf
          obtain ⟨hall', hchildren⟩ := ih hbody ht' hproper hglimpse hs hall
          split at ht
          next => cases ht
          next hkind =>
              cases ht
              refine ⟨.around (fun hexpression => ?_) hall', hchildren.around _ _ _⟩
              have hbegun : t' = .begun := by simpa [hexpression] using hkind
              subst hbegun
              exact hchildren
  | within body ih =>
      obtain ⟨nodes, hbody, rfl⟩ := h
      obtain ⟨t', ht', rfl⟩ := Option.map_eq_some_iff.mp hf
      obtain ⟨hall', hnodes⟩ := ih hbody ht' hproper hglimpse (.inl rfl) .nil
      exact ⟨hall.append hall', hs.follow hnodes⟩
  | orElse first second ihfirst ihsecond =>
      obtain ⟨nodes, between, hfirst, hrest⟩ := h
      obtain ⟨t', ht', hmap⟩ := Option.bind_eq_some_iff.mp hf
      obtain ⟨t'', ht'', rfl⟩ := Option.map_eq_some_iff.mp hmap
      obtain ⟨hall', hnodes⟩ := ihfirst hfirst ht' hproper hglimpse (.inl rfl) .nil
      rcases hrest with ⟨_, hsecond⟩ | ⟨_, rfl, rfl⟩
      · exact (ihsecond hsecond ht'' (hfirst.founds_onward.proper hproper) trivial hs.still
          hall).imp_right fun h => h.meet_right _
      · exact ⟨hall.append hall', (hs.follow hnodes).meet_left _⟩
  | ifStuck first second ihfirst ihsecond =>
      obtain ⟨middle, between, hfirst, hrest⟩ := h
      obtain ⟨t', ht', hmap⟩ := Option.bind_eq_some_iff.mp hf
      obtain ⟨t'', ht'', rfl⟩ := Option.map_eq_some_iff.mp hmap
      obtain ⟨hall', hmiddle⟩ := ihfirst hfirst ht' hproper hglimpse hs hall
      rcases hrest with ⟨_, hsecond⟩ | ⟨_, rfl, rfl⟩
      · exact (ihsecond hsecond ht'' (hfirst.founds_onward.proper hproper) trivial hmiddle
          hall').imp_right fun h => h.meet_right _
      · exact ⟨hall', hmiddle.meet_left _⟩
  | rule r =>
      rw [onset] at hf
      split at hf
      next hadmits =>
          cases hf
          simp only [Rule.admits, Bool.and_eq_true, beq_iff_eq, Bool.or_eq_true,
            Bool.not_eq_true'] at hadmits
          obtain ⟨⟨hsound, hentry⟩, htrusts⟩ := hadmits
          obtain ⟨hall', hexit⟩ := Rule.Founds.founds h hproper hsound
            (fun h => hglimpse.rest_ne_nil (htrusts.resolve_left (by simp [h])))
            (hentry ▸ hs.meet_left r.onsetBefore) hall
          exact ⟨hall', Rule.Founds.behind h hproper hglimpse hs hexit⟩
      next => cases hf

end Form

namespace Rule

variable {r : Rule} {frame frame' : Frame} {c c' : Cursor}

/-- A primitive type begins with its keyword. -/
theorem typeUse_heads (h : typeUse.form.Does Founds [] c frame' c') (hproper : c.Proper)
    (hnext : kindAt c.rest 0 ∈ heads typeUse) : frame'.Headed := by
  obtain ⟨children, ⟨middle, between, hannotations, htype⟩, rfl⟩ := h
  have hnone : kindAt c.rest 0 ≠ .atSign := by
    intro heq
    rw [heq] at hnext
    exact absurd hnext (by decide)
  have hprimitive : ∀ k ∈ heads typeUse,
      k ∈ TokenKind.primitives ++ [TokenKind.kwVoid, .kwVar] := by
    decide
  rcases hannotations.reads.elim with ⟨hat, _⟩ | ⟨_, rfl, rfl⟩
  · simp [Look.holds, hnone] at hat
  · rcases htype with ⟨_, hkeyword⟩ | ⟨hnot, _⟩
    · have hbegun : (Form.token ++ Form.rule .dims).onset (.among (heads typeUse)) .poised =
          some .begun := rfl
      exact (hkeyword.founds hbegun hproper hnext (.inl rfl) .nil).2.around _ _ _
    · rw [Look.holds, List.contains_iff_mem.mpr (hprimitive _ hnext)] at hnot
      cases hnot

theorem Reads.founds (h : r.Reads frame c frame' c') : r.Founds frame c frame' c' := by
  refine h.induct Founds ?_
  intro r frame c frame' c' hform
  refine
    { reads := .intro (hform.mono fun _ _ _ _ _ h => h.reads), founds := ?_, heads := ?_ }
  · intro hproper hsound htrusts hentry hall
    obtain ⟨t, ht, hexit⟩ := Option.map_eq_some_iff.mp (r.onset_form hsound)
    have hglimpse : (if r.trusts then Glimpse.token else .any).Holds c := by
      split
      next h => exact htrusts h
      next => trivial
    obtain ⟨hall', hholds⟩ := hform.founds ht hproper hglimpse hentry hall
    exact ⟨hall', hexit ▸ hholds.meet_right r.onsetBehind⟩
  · intro hproper hnext hempty
    subst hempty
    cases r with
    | typeUse => exact typeUse_heads hform hproper hnext
    | _ => cases hnext

end Rule

/-- Every expression of a tree begins where one of its tokens does. -/
theorem Entry.parse_begins (entry : Entry) (source : Bytes) :
    (entry.parse source).Every Node.Begins := by
  obtain ⟨frame, c, hread⟩ := entry.read?_isSome source
  obtain ⟨node, rfl⟩ := Entry.read?_eq_singleton hread
  have hfounds : entry.rule.Founds [] (Cursor.ofSource source) [node] c :=
    Rule.Reads.founds ⟨_, hread⟩
  have hentry : entry.rule.onsetBefore.Holds [] (Cursor.ofSource source) := by
    cases entry
    · trivial
    · trivial
    · exact .inl rfl
  have htrusts : entry.rule.trusts = false := by cases entry <;> rfl
  simp only [Entry.parse, hread]
  refine (hfounds.founds ⟨Cursor.ofSource_solid source, rfl⟩ (by cases entry <;> rfl)
    (fun h => absurd (htrusts.symm.trans h) Bool.false_ne_true) hentry .nil).1 node
      List.mem_cons_self

end DotCompletion
