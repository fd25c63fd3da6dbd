import DotCompletion.Proofs.Grammar.Plain
import DotCompletion.Proofs.Grammar.WholeInput

/-!
# Operators bind by their levels

Of two operators the one of the higher level binds tighter, and of two of the same level the left
one does, in every tree and also in broken code: the right operand of an operator never is an
operation that binds as loosely, and a looser operation is the left operand only where it tests a
type (`Entry.parse_inOrder`). Behind a test for a type the operators that bind tighter are read on
as if the test were a simple operand (`Entry.sum_of_test`).

Operators are read in a loop. What it keeps is that the next operator binds no tighter than the
operation read last, unless that is a test.
-/

namespace DotCompletion

open Skim (kindAt)

namespace NodeKind

/-- Nodes of this kind apply an operator between operands, or test a type. -/
def isOperation (k : NodeKind) : Bool := k == .binaryExpr || k == .instanceofExpr

/-- Expressions of this kind bind looser than every operator. -/
def isLoose (k : NodeKind) : Bool := k == .assignExpr || k == .ternaryExpr || k == .lambdaExpr

/-- Nodes of this kind are operands whatever operators stand beside them. -/
def isOperand (k : NodeKind) : Bool := !k.isOperation && !k.isLoose

theorem isOperation_iff {k : NodeKind} :
    k.isOperation = true ↔ k = .binaryExpr ∨ k = .instanceofExpr := by
  rw [isOperation, Bool.or_eq_true, beq_iff_eq, beq_iff_eq]

end NodeKind

namespace Grammar

/-- How tightly an operator binds; zero for tokens that are none. -/
def bindingLevel (kind : TokenKind) : Nat :=
  if kind = .kwInstanceof then instanceofLevel else levelOf kind

theorem bindingLevel_of_sign {kind : TokenKind} (h : kind ∈ binarySigns) :
    bindingLevel kind = levelOf kind := by
  have hnot : TokenKind.kwInstanceof ∉ binarySigns := by decide
  rw [bindingLevel, if_neg]
  rintro rfl
  exact hnot h

theorem bindingLevel_pos {kind : TokenKind} (h : kind ∈ binarySigns) : 0 < bindingLevel kind := by
  rw [bindingLevel_of_sign h]
  revert kind
  decide

theorem levelOf_eq_zero {kind : TokenKind} (h : kind ∉ binarySigns) : levelOf kind = 0 := by
  have hnone : binaryLevels.find? (fun entry => entry.2.contains kind) = none := by
    refine List.find?_eq_none.mpr fun entry hentry hkind => h ?_
    exact List.mem_flatMap.mpr ⟨entry, hentry, List.contains_iff_mem.mp hkind⟩
  rw [levelOf, hnone]
  rfl

/-- In front of a token a type is tested, a binary operator is read, or the operators end because
none follows that binds tightly enough. -/
theorem operators_step (least : Nat) {goto : Behaviour} {frame frame' : Frame} {c c' : Cursor}
    (h : (Rule.operators least).form.Does goto frame c frame' c') :
    (kindAt c.rest 0 = .kwInstanceof ∧ least ≤ instanceofLevel ∧
        (instanceofExpr ++ .rule (.operators least)).Does goto frame c frame' c') ∨
      (kindAt c.rest 0 ∈ binarySigns ∧ least ≤ bindingLevel (kindAt c.rest 0) ∧
        (binaryStep least (bindingLevel (kindAt c.rest 0))).Does goto frame c frame' c') ∨
      ((bindingLevel (kindAt c.rest 0) = 0 ∨ bindingLevel (kindAt c.rest 0) < least) ∧
        frame' = frame ∧ c' = c) := by
  by_cases hkind : kindAt c.rest 0 = .kwInstanceof
  · rcases h with ⟨hlook, h⟩ | ⟨hlook, h⟩
    · left
      refine ⟨hkind, ?_, h⟩
      by_contra hleast
      rw [if_neg hleast] at hlook
      cases hlook
    · right
      right
      have hleast : instanceofLevel < least := by
        by_contra hleast
        rw [if_pos (Nat.le_of_not_lt hleast)] at hlook
        simp [Look.holds, hkind] at hlook
      obtain ⟨f, ⟨rfl, _⟩ | ⟨entry, hmem, hsign, _⟩, hiff⟩ :=
        binaryOperators_cases least (kindAt c.rest 0) binaryLevels
      · refine ⟨.inr ?_, (hiff _ _ _ _ _ rfl).mp h⟩
        rwa [hkind]
      · have hnot : ∀ entry ∈ binaryLevels, TokenKind.kwInstanceof ∉ entry.2 := by decide
        exact absurd (hkind ▸ hsign) (hnot entry hmem)
  · right
    obtain ⟨f, ⟨rfl, hends⟩ | ⟨hsign, hleast, rfl⟩, hiff⟩ := operators_cases least hkind
    · right
      refine ⟨?_, (hiff _ _ _ _ _ rfl).mp h⟩
      by_cases hsign : kindAt c.rest 0 ∈ binarySigns
      · rw [bindingLevel_of_sign hsign]
        exact .inr (hends hsign)
      · left
        rw [bindingLevel, if_neg hkind, levelOf_eq_zero hsign]
    · left
      rw [bindingLevel_of_sign hsign]
      exact ⟨hsign, hleast, (hiff _ _ _ _ _ rfl).mp h⟩

end Grammar

open Grammar

namespace Node

/-- How tightly an operation binds: its operator is the second child. -/
def level (n : Node) : Nat :=
  match n.children with
  | _ :: operator :: _ => (operator.token.map fun t => bindingLevel t.kind).getD 0
  | _ => 0

/-- An operation on the left binds at least as tightly. -/
def LeftInOrder (n : Node) : Prop :=
  n.kind.isOperation = true → ∀ left ∈ n.children.head?, left.kind.isOperation = true →
    n.level ≤ left.level

instance (n : Node) : Decidable n.LeftInOrder :=
  inferInstanceAs (Decidable (n.kind.isOperation = true → ∀ left ∈ n.children.head?,
    left.kind.isOperation = true → n.level ≤ left.level))

/-- The order of operators elsewhere than on the left. -/
structure RightInOrder (n : Node) : Prop where
  /-- An operation has an operator. -/
  level_pos : n.kind.isOperation = true → 0 < n.level
  /-- An operation on the right binds tighter. -/
  right : n.kind = .binaryExpr → ∀ right ∈ n.children.getLast?, right.kind.isOperation = true →
    n.level < right.level
  /-- No operand binds looser than all operators. -/
  operands : n.kind = .binaryExpr → ∀ m ∈ n.children, m.kind.isLoose = false
  tested : n.kind = .instanceofExpr → ∀ left ∈ n.children.head?, left.kind.isLoose = false

/-- An operator that binds tighter than the test for a type goes on from one. -/
def ExtendsTest (n : Node) : Prop :=
  n.kind = .binaryExpr ∧ (∃ left ∈ n.children.head?, left.kind = .instanceofExpr) ∧
    instanceofLevel < n.level

/-- What an operation is made of, and how its operands bind. -/
structure Graded (n : Node) : Prop where
  binary : n.kind = .binaryExpr → ∃ left operator right,
    n.children = [left, .leaf .token operator, right] ∧ operator.kind ∈ binarySigns ∧
      left.kind.isLoose = false ∧ right.kind.isLoose = false ∧
      (left.kind = .binaryExpr → n.level ≤ left.level) ∧
      (left.kind = .instanceofExpr → left.level = instanceofLevel) ∧
      (right.kind.isOperation = true → n.level < right.level)
  test : n.kind = .instanceofExpr → ∃ left operator behind,
    n.children = left :: .leaf .token operator :: behind ∧ operator.kind = .kwInstanceof ∧
      left.kind.isLoose = false ∧ (left.kind.isOperation = true → n.level ≤ left.level)

variable {n : Node}

theorem Graded.of_not_operation (h : n.kind.isOperation = false) : n.Graded where
  binary hkind := by
    rw [hkind] at h
    cases h
  test hkind := by
    rw [hkind] at h
    cases h

theorem level_eq {left : Node} {operator : Token} {behind : List Node}
    (h : n.children = left :: .leaf .token operator :: behind) :
    n.level = bindingLevel operator.kind := by
  rw [level, h]
  rfl

theorem Graded.level_of_test (h : n.Graded) (hkind : n.kind = .instanceofExpr) :
    n.level = instanceofLevel := by
  obtain ⟨_, _, _, hchildren, hoperator, _⟩ := h.test hkind
  rw [level_eq hchildren, hoperator]
  rfl

end Node

/-! ## What a frame holds -/

/-- What is known of the nodes of a frame. -/
inductive Holding where
  | nothing
  /-- One node that is an operand beside all operators. -/
  | operand
  | anything
deriving DecidableEq

namespace Holding

def Holds (frame : Frame) : Holding → Prop
  | nothing => frame = []
  | operand => ∃ n, frame = [n] ∧ n.kind.isOperand = true
  | anything => True

/-- What is known of a single node. -/
def single (kind : NodeKind) : Holding := if kind.isOperand then operand else anything

/-- What is known of nodes behind others. -/
def append : Holding → Holding → Holding
  | nothing, t => t
  | s, nothing => s
  | _, _ => anything

/-- What is known if one of two things is. -/
def meet (s t : Holding) : Holding := if s = t then s else anything

variable {s t : Holding} {frame nodes : Frame}

theorem Holds.single {n : Node} : (single n.kind).Holds [n] := by
  unfold Holding.single
  split
  next h => exact ⟨n, rfl, h⟩
  next => trivial

theorem Holds.append (h : s.Holds frame) (h' : t.Holds nodes) :
    (s.append t).Holds (frame ++ nodes) := by
  cases s with
  | nothing =>
      obtain rfl := h
      exact h'
  | operand | anything =>
      cases t with
      | nothing =>
          obtain rfl := h'
          rw [List.append_nil]
          exact h
      | operand | anything => trivial

theorem Holds.meet_left (h : s.Holds frame) (t : Holding) : (s.meet t).Holds frame := by
  unfold meet
  split
  next => exact h
  next => trivial

theorem Holds.meet_right (h : t.Holds frame) (s : Holding) : (s.meet t).Holds frame := by
  unfold meet
  split
  next heq => exact heq ▸ h
  next => trivial

end Holding

namespace Rule

/-- What a rule needs its frame to hold: expressions begin in an empty frame, and what goes on
from an operand finds one. -/
def holdingBefore : Rule → Holding
  | expression | ternary | binary _ | unary | primary | initializer | caseLabel => .nothing
  | suffixes => .operand
  | _ => .anything

/-- What is known of the frame behind a rule. -/
def holdingBehind : Rule → Holding
  | unary | primary | suffixes | creation | methodRef => .operand
  | switch kind => .single kind
  | _ => .anything

/-- The rules that make operations themselves, or nodes of any kind. -/
def makesOperation : Rule → Bool
  | typeArguments kind | switch kind => kind.isOperation
  | operators _ => true
  | _ => false

/-- The rule can be referred to. -/
def takes (r : Rule) (s : Holding) : Bool :=
  !r.makesOperation && (r.holdingBefore == .anything || s == r.holdingBefore)

end Rule

namespace Form

/-- What is known of the frame behind a form. Fails where an operation might be made. -/
def holding : Form → Holding → Option Holding
  | done, s | splitAngle, s => some s
  | discard _, _ => some .anything
  | take kind, s => if kind.isOperation then none else some (s.append (.single kind))
  | missing _, s => some (s.append .operand)
  | seq first second, s => (first.holding s).bind second.holding
  | choose _ yes no, s => (yes.holding s).bind fun t => (no.holding s).map t.meet
  | enclose label body, s =>
    (body.holding s).bind fun _ =>
      if label.kind.isOperation then none else some (.single label.kind)
  | within body, s => (body.holding .nothing).map s.append
  | orElse first second, s =>
    (first.holding .nothing).bind fun t => (second.holding s).map (s.append t).meet
  | ifStuck first second, s => (first.holding s).bind fun t => (second.holding t).map t.meet
  | rule r, s => if r.takes s then some r.holdingBehind else none

end Form

namespace Rule

open Form

theorem holding_form (r : Rule) (h : r.makesOperation = false)
    (hbinary : ∀ least, r ≠ .binary least) :
    (r.form.holding r.holdingBefore).map r.holdingBehind.meet = some r.holdingBehind := by
  cases r with
  | binary least => exact absurd rfl (hbinary least)
  | operators => cases h
  | typeArguments kind | switch kind =>
      have hkind : kind.isOperation = false := h
      cases hsingle : kind.isOperand
      all_goals
        simp only [form, node, token, holding, Label.kind, hkind, holdingBefore, holdingBehind,
          Holding.single, hsingle]
        rfl
  | nested n => cases n <;> rfl
  | classBody b | localVarDecl b | nameRest b => cases b <;> rfl
  | list close item => cases item <;> rfl
  | _ => rfl

end Rule

/-! ## What forms and rules do -/

namespace Node

/-- What the operators read so far have made, in front of a token: an operation of at least some
level, and unless it is a test the token is no operator that binds tighter. -/
structure Binds (least : Nat) (next : TokenKind) (n : Node) : Prop where
  graded : n.Every Graded
  not_loose : n.kind.isLoose = false
  least_le : n.kind.isOperation = true → least ≤ n.level
  next_le : n.kind = .binaryExpr → bindingLevel next ≤ n.level

end Node

namespace Rule

/-- The frame is one operation or operand, and no operator of at least the level follows. -/
def Leaves (least : Nat) (frame : Frame) (c : Cursor) : Prop :=
  ∃ n, frame = [n] ∧ n.Binds least (kindAt c.rest 0) ∧
    (bindingLevel (kindAt c.rest 0) = 0 ∨ bindingLevel (kindAt c.rest 0) < least)

/-- What a rule does to the operations of a frame. -/
structure Grades (r : Rule) (frame : Frame) (c : Cursor) (frame' : Frame) (c' : Cursor) :
    Prop where
  graded : r.makesOperation = false → r.holdingBefore.Holds frame →
    Node.EveryIn Node.Graded frame →
      Node.EveryIn Node.Graded frame' ∧ r.holdingBehind.Holds frame'
  binary : ∀ least, r = .binary least → frame = [] → Leaves least frame' c'
  operators : ∀ least, r = .operators least → ∀ n, frame = [n] →
    n.Binds least (kindAt c.rest 0) → Leaves least frame' c'

end Rule

namespace Form

variable {f : Form} {frame frame' : Frame} {c c' : Cursor} {s t : Holding}

theorem Does.holding (h : f.Does Rule.Grades frame c frame' c') (hf : f.holding s = some t)
    (hs : s.Holds frame) (hframe : Node.EveryIn Node.Graded frame) :
    Node.EveryIn Node.Graded frame' ∧ t.Holds frame' := by
  induction f generalizing frame c frame' c' s t with
  | done | splitAngle =>
      cases hf
      obtain ⟨rfl, _⟩ := h
      exact ⟨hframe, hs⟩
  | discard =>
      cases hf
      obtain ⟨rfl, _⟩ := h
      exact ⟨hframe.filter _, trivial⟩
  | take kind =>
      rw [Form.holding] at hf
      split at hf
      next => cases hf
      next hkind =>
          cases hf
          obtain ⟨rfl, _⟩ := h
          have hleaf : (Node.leaf kind c.next).Graded :=
            .of_not_operation (Bool.eq_false_of_not_eq_true hkind)
          have hsingle : (Holding.single kind).Holds [.leaf kind c.next] := .single
          exact ⟨hframe.append (.single (.leaf hleaf)), hs.append hsingle⟩
  | missing =>
      cases hf
      obtain ⟨rfl, _⟩ := h
      exact ⟨hframe.append (.single (.missing (.of_not_operation rfl))), hs.append ⟨_, rfl, rfl⟩⟩
  | seq first second ihfirst ihsecond =>
      obtain ⟨u, hfirst, hsecond⟩ := Option.bind_eq_some_iff.mp hf
      obtain ⟨middle, between, h, h'⟩ := h
      obtain ⟨hmiddle, hu⟩ := ihfirst h hfirst hs hframe
      exact ihsecond h' hsecond hu hmiddle
  | choose look yes no ihyes ihno =>
      obtain ⟨u, hyes, hf⟩ := Option.bind_eq_some_iff.mp hf
      obtain ⟨v, hno, rfl⟩ := Option.map_eq_some_iff.mp hf
      rcases h with ⟨_, h⟩ | ⟨_, h⟩
      · exact (ihyes h hyes hs hframe).imp_right fun h => h.meet_left v
      · exact (ihno h hno hs hframe).imp_right fun h => h.meet_right u
  | enclose label body ih =>
      obtain ⟨u, hbody, hlabel⟩ := Option.bind_eq_some_iff.mp hf
      obtain ⟨children, h, rfl⟩ := h
      obtain ⟨hchildren, _⟩ := ih h hbody hs hframe
      split at hlabel
      next => cases hlabel
      next hkind =>
          cases hlabel
          exact ⟨.around (.of_not_operation (Bool.eq_false_of_not_eq_true hkind)) hchildren,
            .single (n := .around label.kind _ _ children)⟩
  | within body ih =>
      obtain ⟨u, hbody, rfl⟩ := Option.map_eq_some_iff.mp hf
      obtain ⟨nodes, h, rfl⟩ := h
      obtain ⟨hnodes, hu⟩ := ih h hbody rfl .nil
      exact ⟨hframe.append hnodes, hs.append hu⟩
  | orElse first second ihfirst ihsecond =>
      obtain ⟨u, hfirst, hf⟩ := Option.bind_eq_some_iff.mp hf
      obtain ⟨v, hsecond, rfl⟩ := Option.map_eq_some_iff.mp hf
      obtain ⟨nodes, between, h, ⟨_, h'⟩ | ⟨_, rfl, _⟩⟩ := h
      · exact (ihsecond h' hsecond hs hframe).imp_right fun h => h.meet_right _
      · obtain ⟨hnodes, hu⟩ := ihfirst h hfirst rfl .nil
        exact ⟨hframe.append hnodes, (hs.append hu).meet_left v⟩
  | ifStuck first second ihfirst ihsecond =>
      obtain ⟨u, hfirst, hf⟩ := Option.bind_eq_some_iff.mp hf
      obtain ⟨v, hsecond, rfl⟩ := Option.map_eq_some_iff.mp hf
      obtain ⟨middle, between, h, hrest⟩ := h
      obtain ⟨hmiddle, hu⟩ := ihfirst h hfirst hs hframe
      rcases hrest with ⟨_, h'⟩ | ⟨_, rfl, _⟩
      · exact (ihsecond h' hsecond hu hmiddle).imp_right fun h => h.meet_right u
      · exact ⟨hmiddle, hu.meet_left v⟩
  | rule r =>
      rw [Form.holding] at hf
      split at hf
      next htakes =>
          cases hf
          simp only [Rule.takes, Bool.and_eq_true, Bool.not_eq_true', Bool.or_eq_true,
            beq_iff_eq] at htakes
          refine Rule.Grades.graded h htakes.1 ?_ hframe
          rcases htakes.2 with hany | rfl
          · rw [hany]
            trivial
          · exact hs
      next => cases hf

end Form

namespace Rule

open Form

variable {frame frame' : Frame} {c c' : Cursor} {least : Nat} {n : Node}

/-- A test for a type goes on from its operand. -/
theorem test_binds (hn : n.Binds least (kindAt c.rest 0)) (hkind : kindAt c.rest 0 = .kwInstanceof)
    (hleast : least ≤ instanceofLevel) (h : instanceofExpr.Does Grades [n] c frame' c') :
    ∃ m, frame' = [m] ∧ ∀ next, m.Binds least next := by
  have hnext : c.next.kind = .kwInstanceof := by
    rw [← Cursor.kindAt_rest ?_, hkind]
    intro hrest
    rw [hrest] at hkind
    cases hkind
  obtain ⟨children, hbody, rfl⟩ := h
  obtain ⟨hall, -⟩ := hbody.holding (s := .anything) rfl trivial (.single hn.graded)
  obtain ⟨behind, hchildren⟩ : ∃ behind, children = n :: .leaf .token c.next :: behind := by
    obtain ⟨_, _, ⟨_, _, ⟨_, _, ⟨rfl, rfl⟩, hfinal⟩, _, _, rfl⟩, hname⟩ := hbody
    rcases hfinal with ⟨_, rfl, _⟩ | ⟨_, rfl, _⟩ <;> rcases hname with ⟨_, rfl, _⟩ | ⟨_, rfl, _⟩
    all_goals exact ⟨_, rfl⟩
  have hlevel : (Node.around .instanceofExpr none c.next.span.start children).level =
      instanceofLevel := by
    rw [Node.level_eq hchildren, hnext]
    rfl
  refine ⟨_, rfl, fun next => ⟨.intro ⟨nofun, fun _ => ?_⟩ hall, rfl, fun _ => ?_, nofun⟩⟩
  · refine ⟨n, c.next, behind, hchildren, hnext, hn.not_loose, fun hoperation => ?_⟩
    refine Nat.le_trans (Nat.le_of_eq hlevel) ?_
    rcases NodeKind.isOperation_iff.mp hoperation with hbinary | htest
    · have hle := hn.next_le hbinary
      rwa [hkind] at hle
    · exact Nat.le_of_eq (hn.graded.own.level_of_test htest).symm
  · exact Nat.le_trans hleast (Nat.le_of_eq hlevel.symm)

/-- A binary operator goes on from its left operand. -/
theorem sign_binds (hn : n.Binds least (kindAt c.rest 0)) (hsign : kindAt c.rest 0 ∈ binarySigns)
    (hleast : least ≤ bindingLevel (kindAt c.rest 0))
    (h : (node .binaryExpr
      (token ++ call (.binary (bindingLevel (kindAt c.rest 0) + 1)))).Does Grades [n] c frame' c') :
    ∃ m, frame' = [m] ∧ m.Binds least (kindAt c'.rest 0) := by
  have hnext : kindAt c.rest 0 = c.next.kind := by
    refine Cursor.kindAt_rest fun hrest => ?_
    rw [hrest] at hsign
    revert hsign
    decide
  rw [hnext] at hn hsign hleast h
  obtain ⟨_, ⟨_, _, ⟨rfl, rfl⟩, _, hright, rfl⟩, rfl⟩ := h
  obtain ⟨right, rfl, hbinds, hends⟩ := hright.binary _ rfl rfl
  have hchildren : (Node.around .binaryExpr none c.next.span.start
      ([n] ++ [Node.leaf .token c.next] ++ [right])).children =
        [n, .leaf .token c.next, right] := rfl
  have hlevel := Node.level_eq hchildren
  have hall : Node.EveryIn Node.Graded ([n] ++ [Node.leaf .token c.next] ++ [right]) :=
    .append (.append (.single hn.graded) (.single (.leaf (.of_not_operation rfl))))
      (.single hbinds.graded)
  refine ⟨_, rfl, .intro ⟨fun _ => ?_, nofun⟩ hall, rfl, fun _ => ?_, fun _ => ?_⟩
  · exact ⟨n, c.next, right, rfl, hsign, hn.not_loose, hbinds.not_loose,
      fun hbinary => Nat.le_trans (Nat.le_of_eq hlevel) (hn.next_le hbinary),
      hn.graded.own.level_of_test,
      fun hoperation => Nat.lt_of_le_of_lt (Nat.le_of_eq hlevel) (hbinds.least_le hoperation)⟩
  · exact Nat.le_trans hleast (Nat.le_of_eq hlevel.symm)
  · refine Nat.le_trans ?_ (Nat.le_of_eq hlevel.symm)
    omega

theorem operators_grade (hn : n.Binds least (kindAt c.rest 0))
    (h : (operators least).form.Does Grades [n] c frame' c') : Leaves least frame' c' := by
  rcases operators_step least h with ⟨hkind, hleast, middle, between, htest, hrest⟩ |
    ⟨hsign, hleast, middle, between, hnode, hrest⟩ | ⟨hends, rfl, rfl⟩
  · obtain ⟨m, rfl, hm⟩ := test_binds hn hkind hleast htest
    exact hrest.operators least rfl m rfl (hm _)
  · obtain ⟨m, rfl, hm⟩ := sign_binds hn hsign hleast hnode
    exact hrest.operators least rfl m rfl hm
  · exact ⟨n, rfl, hn, hends⟩

theorem binary_grade (h : (binary least).form.Does Grades [] c frame' c') :
    Leaves least frame' c' := by
  obtain ⟨_, between, hunary, hrest⟩ := h
  obtain ⟨hall, n, rfl, hoperand⟩ := hunary.graded rfl rfl .nil
  have hkind : n.kind.isOperation = false ∧ n.kind.isLoose = false := by
    simpa [NodeKind.isOperand] using hoperand
  refine hrest.operators least rfl n rfl ⟨hall n List.mem_cons_self, hkind.2, fun h => ?_, ?_⟩
  · rw [hkind.1] at h
    cases h
  · intro hbinary
    rw [hbinary] at hkind
    cases hkind.1

theorem Leaves.graded (h : Leaves least frame c) : Node.EveryIn Node.Graded frame := by
  obtain ⟨n, rfl, hn, -⟩ := h
  exact .single hn.graded

theorem Reads.grades {r : Rule} (h : r.Reads frame c frame' c') : r.Grades frame c frame' c' := by
  refine h.induct Grades fun r frame c frame' c' hform =>
    ⟨fun hmakes hholding hframe => ?_, ?_, ?_⟩
  · by_cases hbinary : ∃ least, r = .binary least
    · obtain ⟨least, rfl⟩ := hbinary
      obtain rfl := hholding
      exact ⟨(binary_grade hform).graded, trivial⟩
    · obtain ⟨s, hs, hmeet⟩ := Option.map_eq_some_iff.mp
        (holding_form r hmakes fun least hleast => hbinary ⟨least, hleast⟩)
      obtain ⟨hall, hholds⟩ := hform.holding hs hholding hframe
      exact ⟨hall, hmeet ▸ hholds.meet_right _⟩
  · rintro least rfl rfl
    exact binary_grade hform
  · rintro least rfl n rfl hn
    exact operators_grade hn hform

end Rule

namespace Node

variable {n : Node}

theorem Graded.rightInOrder (h : n.Graded) : n.RightInOrder where
  level_pos hoperation := by
    rcases NodeKind.isOperation_iff.mp hoperation with hbinary | htest
    · obtain ⟨_, _, _, hchildren, hsign, _⟩ := h.binary hbinary
      rw [level_eq hchildren]
      exact bindingLevel_pos hsign
    · rw [h.level_of_test htest]
      decide
  right hbinary right hright := by
    obtain ⟨_, _, _, hchildren, _, _, _, _, _, hlt⟩ := h.binary hbinary
    rw [hchildren] at hright
    cases hright
    exact hlt
  operands hbinary m hm := by
    obtain ⟨_, _, _, hchildren, _, hleft, hright, _⟩ := h.binary hbinary
    rw [hchildren] at hm
    simp only [List.mem_cons, List.not_mem_nil, or_false] at hm
    rcases hm with rfl | rfl | rfl
    · exact hleft
    · rfl
    · exact hright
  tested htest left hleft := by
    obtain ⟨_, _, _, hchildren, _, hloose, _⟩ := h.test htest
    rw [hchildren] at hleft
    cases hleft
    exact hloose

theorem Graded.leftInOrder_iff (h : n.Graded) : n.LeftInOrder ↔ ¬n.ExtendsTest := by
  constructor
  · rintro hordered ⟨hbinary, ⟨left, hleft, htest⟩, hlt⟩
    obtain ⟨_, _, _, hchildren, _, _, _, _, hlevel, _⟩ := h.binary hbinary
    have hle := hordered (NodeKind.isOperation_iff.mpr (.inl hbinary)) left hleft
      (NodeKind.isOperation_iff.mpr (.inr htest))
    rw [hchildren] at hleft
    cases hleft
    rw [hlevel htest] at hle
    exact absurd hlt (Nat.not_lt.mpr hle)
  · intro hnot hoperation left hleft hleftOperation
    rcases NodeKind.isOperation_iff.mp hoperation with hbinary | htest
    · obtain ⟨_, _, _, hchildren, _, _, _, hle, hlevel, _⟩ := h.binary hbinary
      have hhead := hleft
      rw [hchildren] at hhead
      cases hhead
      rcases NodeKind.isOperation_iff.mp hleftOperation with hleftBinary | hleftTest
      · exact hle hleftBinary
      · rw [hlevel hleftTest]
        exact Nat.not_lt.mp fun hlt => hnot ⟨hbinary, ⟨left, hleft, hleftTest⟩, hlt⟩
    · obtain ⟨_, _, _, hchildren, _, _, hle⟩ := h.test htest
      rw [hchildren] at hleft
      cases hleft
      exact hle hleftOperation

end Node

namespace Entry

/-- Everywhere in a tree an operation on the right of an operator binds tighter, nothing looser
than operators is an operand, and an operation on the left binds at least as tightly, except
where an operator that binds tighter goes on from a test for a type. -/
theorem parse_inOrder (entry : Entry) (source : Bytes) :
    (entry.parse source).Every fun n =>
      n.RightInOrder ∧ (n.LeftInOrder ↔ ¬n.ExtendsTest) := by
  obtain ⟨frame, c, hread⟩ := entry.read?_isSome source
  obtain ⟨node, rfl⟩ := Entry.read?_eq_singleton hread
  have hgrades : entry.rule.Grades [] (Cursor.ofSource source) [node] c :=
    Rule.Reads.grades ⟨_, hread⟩
  have hstart : entry.rule.makesOperation = false ∧ entry.rule.holdingBefore.Holds [] := by
    cases entry
    · exact ⟨rfl, trivial⟩
    · exact ⟨rfl, trivial⟩
    · exact ⟨rfl, rfl⟩
  obtain ⟨hall, -⟩ := hgrades.graded hstart.1 hstart.2 .nil
  simp only [Entry.parse, hread]
  exact (hall node List.mem_cons_self).imp fun _ h =>
    ⟨h.own.rightInOrder, h.own.leftInOrder_iff⟩

/-- A sum that goes on from a test for a type has the looser operation on its left. -/
theorem sum_of_test :
    ¬(Entry.statements.parse (Bytes.ofString "a instanceof T + b;")).Every Node.LeftInOrder := by
  have hcheck : ¬(Entry.statements.parse (Bytes.ofString "a instanceof T + b;")).all
      (fun n => decide n.LeftInOrder) = true := by
    decide +kernel
  rw [Node.all_eq_true] at hcheck
  simpa only [decide_eq_true_eq] using hcheck

end Entry

end DotCompletion
