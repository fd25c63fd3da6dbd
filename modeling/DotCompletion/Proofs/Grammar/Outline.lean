import Mathlib.Data.List.Forall2
import DotCompletion.Proofs.Grammar.Reads
import DotCompletion.Proofs.Node.Yield

/-!
# The shapes of nodes

An outline tells the kinds that each node of a frame may have. It is followed
through a form without running it: a form that encloses the frame in a reference
or in an expression statement passes only if the outline shows that the children
are of the right kinds. Since every form passes, references and expression
statements have these children in every tree.
-/

namespace DotCompletion

/-- The kinds that each node of a frame may have. -/
abbrev Outline := List (List NodeKind)

namespace Outline

/-- The frame has the outline. -/
def Fits (o : Outline) (frame : Frame) : Prop :=
  List.Forall₂ (fun kinds n => n.kind ∈ kinds) o frame

/-- Every frame with the first outline has the second. -/
def below : Outline → Outline → Bool
  | [], [] => true
  | kinds :: o, kinds' :: o' => kinds.all kinds'.contains && below o o'
  | _, _ => false

/-- The outline of a frame that has one of two outlines. -/
def join : Outline → Outline → Option Outline
  | [], [] => some []
  | kinds :: o, kinds' :: o' => (join o o').map fun both => (kinds ++ kinds') :: both
  | _, _ => none

variable {o o' : Outline} {frame frame' : Frame}

theorem Fits.of_below (hbelow : below o o' = true) (h : o.Fits frame) : o'.Fits frame := by
  induction h generalizing o' with
  | nil =>
      cases o' with
      | nil => exact .nil
      | cons => cases hbelow
  | cons hhead _ ih =>
      cases o' with
      | nil => cases hbelow
      | cons kinds' o' =>
          simp only [below, Bool.and_eq_true, List.all_eq_true] at hbelow
          exact .cons (by simpa using hbelow.1 _ hhead) (ih hbelow.2)

theorem Fits.append (h : o.Fits frame) (h' : o'.Fits frame') :
    Fits (o ++ o') (frame ++ frame') := by
  induction h with
  | nil => exact h'
  | cons hhead _ ih => exact .cons hhead ih

theorem Fits.one {n : Node} {kinds : List NodeKind} (h : n.kind ∈ kinds) : Fits [kinds] [n] :=
  .cons h .nil

/-- What is known of a frame holds of it. -/
def Describes (known : Option Outline) (frame : Frame) : Prop :=
  ∀ o ∈ known, o.Fits frame

/-- What is known of a frame that is described by one of two. -/
def either (known known' : Option Outline) : Option Outline :=
  known.bind fun o => known'.bind (join o)

/-- What is known of two frames put together. -/
def both (known known' : Option Outline) : Option Outline :=
  known.bind fun o => known'.map (o ++ ·)

theorem join_left (h : o.Fits frame) : Describes (join o o') frame := by
  induction h generalizing o' with
  | nil =>
      cases o' with
      | nil => rintro _ ⟨⟩; exact .nil
      | cons => rintro _ ⟨⟩
  | cons hhead _ ih =>
      cases o' with
      | nil => rintro _ ⟨⟩
      | cons kinds' o' =>
          intro p hp
          obtain ⟨both, hboth, rfl⟩ := Option.map_eq_some_iff.mp hp
          exact .cons (List.mem_append_left _ hhead) (ih both hboth)

theorem join_right (h : o'.Fits frame) : Describes (join o o') frame := by
  induction h generalizing o with
  | nil =>
      cases o with
      | nil => rintro _ ⟨⟩; exact .nil
      | cons => rintro _ ⟨⟩
  | cons hhead _ ih =>
      cases o with
      | nil => rintro _ ⟨⟩
      | cons kinds o =>
          intro p hp
          obtain ⟨both, hboth, rfl⟩ := Option.map_eq_some_iff.mp hp
          exact .cons (List.mem_append_right _ hhead) (ih both hboth)

namespace Describes

variable {known known' : Option Outline}

theorem nothing (frame : Frame) : Describes none frame := by
  rintro _ ⟨⟩

theorem empty : Describes (some []) [] := by
  rintro _ ⟨⟩
  exact .nil

theorem one {n : Node} {kinds : List NodeKind} (h : n.kind ∈ kinds) :
    Describes (some [kinds]) [n] := by
  rintro _ ⟨⟩
  exact .one h

theorem either_left (h : Describes known frame) : Describes (either known known') frame := by
  intro p hp
  simp only [either, Option.mem_def, Option.bind_eq_some_iff] at hp
  obtain ⟨o, ho, o', _, hp⟩ := hp
  exact join_left (h o ho) p hp

theorem either_right (h : Describes known' frame) : Describes (either known known') frame := by
  intro p hp
  simp only [either, Option.mem_def, Option.bind_eq_some_iff] at hp
  obtain ⟨o, _, o', ho', hp⟩ := hp
  exact join_right (h o' ho') p hp

theorem append (h : Describes known frame) (h' : Describes known' frame') :
    Describes (both known known') (frame ++ frame') := by
  intro p hp
  simp only [both, Option.mem_def, Option.bind_eq_some_iff, Option.map_eq_some_iff] at hp
  obtain ⟨o, ho, o', ho', rfl⟩ := hp
  exact (h o ho).append (h' o' ho')

theorem snoc (h : Describes known frame) {n : Node} {kinds : List NodeKind} (hn : n.kind ∈ kinds) :
    Describes (known.map (· ++ [kinds])) (frame ++ [n]) := by
  intro p hp
  obtain ⟨o, ho, rfl⟩ := Option.map_eq_some_iff.mp hp
  exact (h o ho).append (.one hn)

end Describes

/-- What is known suffices for the outline. -/
def meets (known : Option Outline) (o : Outline) : Bool :=
  (known.map fun found => below found o).getD false

theorem below_join {p : Outline} (h : below o p = true) (h' : below o' p = true) :
    ∃ both, join o o' = some both ∧ below both p = true := by
  induction p generalizing o o' with
  | nil =>
      cases o with
      | cons => cases h
      | nil =>
          cases o' with
          | cons => cases h'
          | nil => exact ⟨[], rfl, rfl⟩
  | cons kinds p ih =>
      cases o with
      | nil => cases h
      | cons _ o =>
          cases o' with
          | nil => cases h'
          | cons _ o' =>
              simp only [below, Bool.and_eq_true] at h h'
              obtain ⟨both, hboth, hbelow⟩ := ih h.2 h'.2
              refine ⟨_, by rw [join, hboth]; rfl, ?_⟩
              simp only [below, List.all_append, h.1, h'.1, hbelow, Bool.and_self]

theorem meets_either {known known' : Option Outline} (h : meets known o = true)
    (h' : meets known' o = true) : meets (either known known') o = true := by
  cases known with
  | none => cases h
  | some found =>
      cases known' with
      | none => cases h'
      | some found' =>
          obtain ⟨both, hboth, hbelow⟩ := below_join h h'
          simp only [either, Option.bind_some, hboth]
          exact hbelow

theorem Describes.fits {known : Option Outline} (h : Describes known frame)
    (hmeets : meets known o = true) : o.Fits frame := by
  cases known with
  | none => cases hmeets
  | some found => exact (h found rfl).of_below hmeets

end Outline

open Outline (Describes)

/-! ## Nodes with a shape -/

namespace NodeKind

/-- The kinds of an operand, which may be missing. -/
def operands : List NodeKind := .error :: expressions

/-- The outlines that the children of a node of this kind can have, if it is
restricted to some. Names, plain tokens and literals are leaves only. -/
def shapes : NodeKind → Option (List Outline)
  | referenceExpr =>
    some [[[referenceParameterList], [identifier]],
      [operands, [token], [referenceParameterList], [identifier, error]]]
  | exprStmt => some [[operands, [token, error]]]
  | identifier | token | literal => some []
  | _ => none

/-- What is known of the children suffices for a node of this kind. -/
def admits (kind : NodeKind) (known : Option Outline) : Bool :=
  (kind.shapes.map fun shapes => shapes.any (Outline.meets known)).getD true

/-- A node of this kind can be a leaf. -/
def canBeLeaf (kind : NodeKind) : Bool :=
  kind != referenceExpr && kind != exprStmt

end NodeKind

namespace Node

/-- The kind of the node allows it to be a leaf if it is one, and else allows its
children. -/
structure Shaped (n : Node) : Prop where
  leaf : n.token ≠ none → n.kind.canBeLeaf = true
  inner : n.token = none → ∀ shapes ∈ n.kind.shapes, ∃ o ∈ shapes, o.Fits n.children

theorem Shaped.around {label : Label} {error : Option Diagnostic} {p : Position}
    {children : List Node} {known : Option Outline} (h : Describes known children)
    (hadmits : label.kind.admits known = true) :
    (around label.kind error p children).Shaped where
  leaf := fun htoken => absurd rfl htoken
  inner := by
    intro _ shapes hshapes
    change label.kind.shapes = some shapes at hshapes
    rw [NodeKind.admits, hshapes] at hadmits
    obtain ⟨o, ho, hmeets⟩ := List.any_eq_true.mp hadmits
    exact ⟨o, ho, h.fits hmeets⟩

theorem Shaped.ofLeaf {kind : NodeKind} (t : Token) (h : kind.canBeLeaf = true) :
    (Node.leaf kind t).Shaped where
  leaf := fun _ => h
  inner := fun htoken => nomatch htoken

theorem Shaped.ofMissing (p : Position) (d : Diagnostic) : (Node.missing p d).Shaped where
  leaf := fun htoken => absurd rfl htoken
  inner := fun _ _ hshapes => nomatch hshapes

/-- Names, plain tokens and literals have a token. -/
theorem Shaped.exists_token {n : Node} (h : n.Shaped) (hkind : n.kind.shapes = some []) :
    ∃ t, n.token = some t := by
  cases htoken : n.token with
  | some t => exact ⟨t, rfl⟩
  | none =>
      obtain ⟨o, ho, _⟩ := h.inner htoken [] hkind
      cases ho

/-- A node with restricted children has some of these. -/
theorem Shaped.exists_fits {n : Node} (h : n.Shaped) {shapes : List Outline}
    (hkind : n.kind.canBeLeaf = false) (hshapes : n.kind.shapes = some shapes) :
    ∃ o ∈ shapes, o.Fits n.children := by
  refine h.inner ?_ shapes hshapes
  cases htoken : n.token with
  | none => rfl
  | some t =>
      rw [h.leaf (by simp [htoken])] at hkind
      cases hkind

end Node

/-! ## Outlines through forms -/

namespace Rule

/-- The outline that the frame of a rule must have, if any. No frame fits a rule
that would make a restricted node of something else. -/
def needs : Rule → Option Outline
  | statement | exprStmt | initializer | caseLabel | expression | ternary | binary _ | unary
  | primary => some []
  | operators _ | suffixes => some [NodeKind.operands]
  | typeArguments kind | switch kind => if kind.shapes.isSome then some [[]] else none
  | _ => none

/-- The outline of the frame behind a rule, if it is known. -/
def leaves : Rule → Option Outline
  | initializer | expression | ternary | binary _ | unary | primary | operators _ | suffixes =>
    some [NodeKind.operands]
  | typeArguments kind | switch kind => some [[kind]]
  | methodRef => some [[.methodRef]]
  | lambda => some [[.lambdaExpr]]
  | creation => some [[.newArrayExpr, .newExpr]]
  | arrayInit => some [[.arrayInit]]
  | arguments => some [[.arguments]]
  | typeUse => some [[.typeUse]]
  | statementBlock => some [[.block]]
  | compilationUnit => some [[.compilationUnit]]
  | _ => none

end Rule

namespace Form

/-- What is known of the frame behind a form. Fails where a restricted node might
be made of the wrong children. -/
def outline : Form → Option Outline → Option (Option Outline)
  | done, known | splitAngle, known => some known
  | take kind, known =>
    if kind.canBeLeaf then some (known.map (· ++ [[kind]])) else none
  | missing _, known => some (known.map (· ++ [[.error]]))
  | discard _, _ => some none
  | seq first second, known => (first.outline known).bind second.outline
  | choose _ yes no, known =>
    (yes.outline known).bind fun left => (no.outline known).map (Outline.either left)
  | enclose label body, known =>
    (body.outline known).bind fun inner =>
      if label.kind.admits inner then some (some [[label.kind]]) else none
  | within body, known => (body.outline (some [])).map (Outline.both known)
  | orElse first second, known =>
    (first.outline (some [])).bind fun inner =>
      (second.outline known).map (Outline.either (Outline.both known inner))
  | ifStuck first second, known =>
    (first.outline known).bind fun middle => (second.outline middle).map (Outline.either middle)
  | rule name, known =>
    if (name.needs.map (Outline.meets known)).getD true then some name.leaves else none

/-- All nodes of a frame, and those below them, have a shape that their kind
allows. -/
def AllShaped (frame : Frame) : Prop := ∀ n ∈ frame, n.Every Node.Shaped

theorem AllShaped.append {frame frame' : Frame} (h : AllShaped frame) (h' : AllShaped frame') :
    AllShaped (frame ++ frame') :=
  Node.EveryIn.append h h'

theorem AllShaped.snoc {frame : Frame} (h : AllShaped frame) {n : Node} (hn : n.Every Node.Shaped) :
    AllShaped (frame ++ [n]) :=
  h.append (Node.EveryIn.single hn)

theorem allShaped_nil : AllShaped [] := Node.EveryIn.nil

/-- From a frame that a rule can work on it makes one that its outline
describes. -/
def Follows (r : Rule) (frame frame' : Frame) : Prop :=
  Describes r.needs frame → AllShaped frame → Describes r.leaves frame' ∧ AllShaped frame'

/-- A form keeps to its outline if the rules in it do. -/
theorem Does.follows {goto : Behaviour}
    (hgoto : ∀ r frame c frame' c', goto r frame c frame' c' → Follows r frame frame')
    {f : Form} {known known' : Option Outline} {frame frame' : Frame} {c c' : Cursor}
    (h : f.Does goto frame c frame' c') (hf : f.outline known = some known')
    (hknown : Describes known frame) (hframe : AllShaped frame) :
    Describes known' frame' ∧ AllShaped frame' := by
  induction f generalizing known known' frame c frame' c' with
  | done | splitAngle =>
      cases hf
      obtain ⟨rfl, _⟩ := h
      exact ⟨hknown, hframe⟩
  | take kind =>
      obtain ⟨rfl, _⟩ := h
      simp only [outline] at hf
      split at hf
      next hleaf =>
          cases hf
          exact ⟨hknown.snoc List.mem_cons_self, hframe.snoc (.leaf (.ofLeaf _ hleaf))⟩
      next => cases hf
  | missing problem =>
      cases hf
      obtain ⟨rfl, _⟩ := h
      exact ⟨hknown.snoc List.mem_cons_self, hframe.snoc (.missing (.ofMissing _ _))⟩
  | discard kind =>
      cases hf
      obtain ⟨rfl, _⟩ := h
      exact ⟨.nothing _, fun n hn => hframe n (List.mem_filter.mp hn).1⟩
  | seq first second ihfirst ihsecond =>
      obtain ⟨middle, between, hfirst, hsecond⟩ := h
      obtain ⟨inner, hinner, hf⟩ := Option.bind_eq_some_iff.mp hf
      obtain ⟨hmiddle, hshaped⟩ := ihfirst hfirst hinner hknown hframe
      exact ihsecond hsecond hf hmiddle hshaped
  | choose look yes no ihyes ihno =>
      obtain ⟨left, hleft, hf⟩ := Option.bind_eq_some_iff.mp hf
      obtain ⟨right, hright, rfl⟩ := Option.map_eq_some_iff.mp hf
      rcases h with ⟨_, hyes⟩ | ⟨_, hno⟩
      · obtain ⟨hframe', hshaped⟩ := ihyes hyes hleft hknown hframe
        exact ⟨hframe'.either_left, hshaped⟩
      · obtain ⟨hframe', hshaped⟩ := ihno hno hright hknown hframe
        exact ⟨hframe'.either_right, hshaped⟩
  | enclose label body ih =>
      obtain ⟨children, hbody, rfl⟩ := h
      obtain ⟨inner, hinner, hf⟩ := Option.bind_eq_some_iff.mp hf
      obtain ⟨hchildren, hshaped⟩ := ih hbody hinner hknown hframe
      split at hf
      next hadmits =>
          cases hf
          refine ⟨.one List.mem_cons_self, fun n hn => ?_⟩
          rw [List.mem_singleton.mp hn]
          exact .intro (.around hchildren hadmits) hshaped
      next => cases hf
  | within body ih =>
      obtain ⟨nodes, hbody, rfl⟩ := h
      obtain ⟨inner, hinner, rfl⟩ := Option.map_eq_some_iff.mp hf
      obtain ⟨hnodes, hshaped⟩ := ih hbody hinner .empty allShaped_nil
      exact ⟨hknown.append hnodes, hframe.append hshaped⟩
  | orElse first second ihfirst ihsecond =>
      obtain ⟨nodes, between, hfirst, hrest⟩ := h
      obtain ⟨inner, hinner, hf⟩ := Option.bind_eq_some_iff.mp hf
      obtain ⟨other, hother, rfl⟩ := Option.map_eq_some_iff.mp hf
      rcases hrest with ⟨_, hsecond⟩ | ⟨_, rfl, _⟩
      · obtain ⟨hframe', hshaped⟩ := ihsecond hsecond hother hknown hframe
        exact ⟨hframe'.either_right, hshaped⟩
      · obtain ⟨hnodes, hshaped⟩ := ihfirst hfirst hinner .empty allShaped_nil
        exact ⟨(hknown.append hnodes).either_left, hframe.append hshaped⟩
  | ifStuck first second ihfirst ihsecond =>
      obtain ⟨middle, between, hfirst, hrest⟩ := h
      obtain ⟨inner, hinner, hf⟩ := Option.bind_eq_some_iff.mp hf
      obtain ⟨other, hother, rfl⟩ := Option.map_eq_some_iff.mp hf
      obtain ⟨hmiddle, hshaped⟩ := ihfirst hfirst hinner hknown hframe
      rcases hrest with ⟨_, hsecond⟩ | ⟨_, rfl, _⟩
      · obtain ⟨hframe', hshaped'⟩ := ihsecond hsecond hother hmiddle hshaped
        exact ⟨hframe'.either_right, hshaped'⟩
      · exact ⟨hmiddle.either_left, hshaped⟩
  | rule name =>
      simp only [outline] at hf
      split at hf
      next hneeds =>
          cases hf
          refine hgoto _ _ _ _ _ h ?_ hframe
          intro o ho
          rw [ho] at hneeds
          exact hknown.fits hneeds
      next => cases hf

end Form

/-! ## The outline of every rule -/

namespace Grammar

theorem outline_binaryOperators (least : Nat) (levels : List (Nat × List TokenKind)) :
    ∃ known, (binaryOperators least levels).outline (some [NodeKind.operands]) = some known ∧
      Outline.meets known [NodeKind.operands] = true := by
  induction levels with
  | nil => exact ⟨_, rfl, by decide⟩
  | cons level levels ih =>
      unfold binaryOperators
      split
      next =>
          obtain ⟨known, hknown, hmeets⟩ := ih
          refine ⟨Outline.either (some [NodeKind.operands]) known, ?_, ?_⟩
          · change ((binaryOperators least levels).outline _).map _ = _
            rw [hknown]
            rfl
          · exact Outline.meets_either (by decide) hmeets
      next => exact ih

end Grammar

namespace Rule

/-- Every form passes, and leaves a frame with the outline of its rule. -/
theorem outline_form (r : Rule) (h : r.needs ≠ some [[]]) :
    ∃ known, r.form.outline r.needs = some known ∧
      ∀ o ∈ r.leaves, Outline.meets known o = true := by
  cases r with
  | operators least =>
      obtain ⟨known, hknown, hmeets⟩ :=
        Grammar.outline_binaryOperators least Grammar.binaryLevels
      refine ⟨Outline.either (some [NodeKind.operands]) known, ?_, ?_⟩
      · change ((Grammar.binaryOperators least Grammar.binaryLevels).outline
          (some [NodeKind.operands])).map _ = _
        rw [hknown]
        rfl
      · rintro _ ⟨⟩
        exact Outline.meets_either (by decide) hmeets
  | typeArguments kind | switch kind =>
      have hfree : kind.shapes = none := by
        cases hshapes : kind.shapes with
        | none => rfl
        | some shapes => exact absurd (by simp [needs, hshapes]) h
      refine ⟨some [[kind]], ?_, ?_⟩
      · have hadmits (known : Option Outline) : kind.admits known = true := by
          simp [NodeKind.admits, hfree]
        simp only [needs, hfree, Option.isSome_none, Bool.false_eq_true, if_false]
        change (if kind.admits _ then _ else _) = _
        rw [hadmits]
        rfl
      · rintro _ ⟨⟩
        simp [Outline.meets, Outline.below]
  | nested n => cases n <;> exact ⟨_, rfl, by rintro _ ⟨⟩⟩
  | classBody b | localVarDecl b | qualifiedName b | nameRest b =>
      cases b <;> exact ⟨_, rfl, by rintro _ ⟨⟩⟩
  | list close item => cases item <;> exact ⟨_, rfl, by rintro _ ⟨⟩⟩
  | expression | ternary | binary | unary | primary | initializer | suffixes | methodRef | lambda
  | creation | arrayInit | arguments | typeUse | statementBlock | compilationUnit =>
      exact ⟨_, rfl, by rintro _ ⟨⟩; rfl⟩
  | _ => exact ⟨_, rfl, by rintro _ ⟨⟩⟩

/-- Every rule keeps to its outline. -/
theorem Reads.follows {r : Rule} {frame frame' : Frame} {c c' : Cursor}
    (h : r.Reads frame c frame' c') : Form.Follows r frame frame' := by
  refine h.induct (fun r frame _ frame' _ => Form.Follows r frame frame') ?_
  intro r frame c frame' c' hform hneeds hframe
  by_cases hnone : r.needs = some [[]]
  · -- no node has a kind out of none
    obtain ⟨hkind, _⟩ := List.forall₂_cons_left_iff.mp (hneeds _ hnone)
    exact nomatch hkind
  · obtain ⟨known, hknown, hmeets⟩ := r.outline_form hnone
    obtain ⟨hdescribes, hshaped⟩ := hform.follows (fun _ _ _ _ _ => id) hknown hneeds hframe
    exact ⟨fun o ho => hdescribes.fits (hmeets o ho), hshaped⟩

end Rule

end DotCompletion
