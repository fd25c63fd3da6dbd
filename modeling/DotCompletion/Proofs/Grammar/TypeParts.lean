import DotCompletion.Proofs.Grammar.WholeInput
import DotCompletion.Proofs.Node.Yield

/-!
# What types and names are written with

A name is a single word. A type consists of names, signs, annotations and lists of type
arguments. What stands in brackets behind the name of an annotation is kept as signs, so no
statement and no expression is part of a type, even if one is written there
(`Entry.parse_written`).
-/

namespace DotCompletion

/-- Types are written with nodes of these kinds. -/
def NodeKind.isTypePart : NodeKind → Bool
  | typeUse | typeArguments | annotationUse | identifier | token | error => true
  | _ => false

namespace Node

/-- A name has nothing below it. -/
def IsWord (n : Node) : Prop := n.kind = .identifier → n.children = []

/-- The node can be a part of a type. -/
def IsTypePart (n : Node) : Prop := n.kind.isTypePart = true ∧ n.IsWord

/-- Names are words, and types are written with parts of types only. -/
def Written (n : Node) : Prop := n.IsWord ∧ (n.kind = .typeUse → n.Every IsTypePart)

variable {kind : NodeKind} {error : Option Diagnostic} {p : Position} {row : List Node}

theorem Written.leaf (kind : NodeKind) (t : Token) : (Node.leaf kind t).Written :=
  ⟨fun _ => rfl, fun hkind => Every.leaf ⟨congrArg NodeKind.isTypePart hkind, fun _ => rfl⟩⟩

theorem Written.around (htype : kind ≠ .typeUse) (hname : kind ≠ .identifier) :
    (Node.around kind error p row).Written :=
  ⟨fun hkind => absurd hkind hname, fun hkind => absurd hkind htype⟩

/-- A type made of parts of types has only types below it that are. -/
theorem EveryIn.written (h : EveryIn IsTypePart row) :
    EveryIn Written [.around .typeUse error p row] := by
  have htype : (Node.around .typeUse error p row).Every IsTypePart :=
    .intro ⟨rfl, nofun⟩ h
  exact .single (htype.imp fun _ hm => ⟨hm.own.2, fun _ => hm⟩)

end Node

/-- All nodes of the frame are parts of types. -/
def OfTypeParts (frame : Frame) : Prop := Node.EveryIn Node.IsTypePart frame

/-- Types and names in the frame are written as they should be. -/
def AllWritten (frame : Frame) : Prop := Node.EveryIn Node.Written frame

namespace Rule

/-- The rules that make parts of types only. -/
def isTypePart : Rule → Bool
  | qualifiedName _ | nameRest _ | annotationUse | annotations | nested _ | dims | typeUse
  | typeName | typeArguments .typeArguments | list _ .typeUse | skipTo _ => true
  | _ => false

/-- The rule makes a type of all that is in the frame. -/
def makesType : Rule → Bool
  | typeUse => true
  | _ => false

/-- A rule that makes parts of types leaves nothing else behind. -/
def AddsTypeParts : Behaviour := fun r frame _ frame' _ =>
  r.isTypePart = true → OfTypeParts frame → OfTypeParts frame'

/-- The rule calls nothing else a type or a name. -/
def isProper : Rule → Bool
  | typeArguments kind | switch kind => kind != .typeUse && kind != .identifier
  | _ => true

/-- A rule keeps the types and names of a frame. -/
def KeepsWritten : Behaviour := fun r frame c frame' c' =>
  AddsTypeParts r frame c frame' c' ∧ (r.isProper = true →
    (r.makesType = true → frame = []) → AllWritten frame → AllWritten frame')

end Rule

namespace Form

/-- The form makes parts of types only. -/
def isTypePart : Form → Bool
  | take kind => kind.isTypePart
  | seq first second | ifStuck first second | orElse first second | choose _ first second =>
    first.isTypePart && second.isTypePart
  | enclose label body =>
    label.kind.isTypePart && label.kind != .identifier && body.isTypePart
  | within body => body.isTypePart
  | rule r => r.isTypePart
  | _ => true

/-- The form makes types of parts of types only, in empty frames, and names of single words. -/
def keepsWritten (empty : Bool) : Form → Bool
  | seq first second | ifStuck first second =>
    first.keepsWritten empty && second.keepsWritten false
  | choose _ yes no => yes.keepsWritten empty && no.keepsWritten empty
  | enclose label body =>
    if label.kind = .typeUse then empty && body.isTypePart
    else label.kind != .identifier && body.keepsWritten empty
  | within body => body.keepsWritten true
  | orElse first second => first.keepsWritten true && second.keepsWritten empty
  | rule r => r.isProper && (!r.makesType || empty)
  | _ => true

variable {f : Form} {frame frame' : Frame} {c c' : Cursor} {empty : Bool}

theorem Does.addsTypeParts (h : f.Does Rule.AddsTypeParts frame c frame' c')
    (hf : f.isTypePart = true) (hframe : OfTypeParts frame) : OfTypeParts frame' := by
  induction f generalizing frame c frame' c' with
  | done | splitAngle =>
      obtain ⟨rfl, _⟩ := h
      exact hframe
  | take kind =>
      obtain ⟨rfl, _⟩ := h
      exact hframe.append (.single (.leaf ⟨hf, fun _ => rfl⟩))
  | missing problem =>
      obtain ⟨rfl, _⟩ := h
      exact hframe.append (.single (.missing ⟨rfl, nofun⟩))
  | discard kind =>
      obtain ⟨rfl, _⟩ := h
      exact hframe.filter _
  | seq first second ihfirst ihsecond =>
      rw [isTypePart, Bool.and_eq_true] at hf
      obtain ⟨middle, between, hfirst, hsecond⟩ := h
      exact ihsecond hsecond hf.2 (ihfirst hfirst hf.1 hframe)
  | choose look yes no ihyes ihno =>
      rw [isTypePart, Bool.and_eq_true] at hf
      rcases h with ⟨_, h⟩ | ⟨_, h⟩
      · exact ihyes h hf.1 hframe
      · exact ihno h hf.2 hframe
  | enclose label body ih =>
      simp only [isTypePart, Bool.and_eq_true, bne_iff_ne] at hf
      obtain ⟨children, hbody, rfl⟩ := h
      exact .around ⟨hf.1.1, fun hkind => absurd hkind hf.1.2⟩ (ih hbody hf.2 hframe)
  | within body ih =>
      obtain ⟨nodes, hbody, rfl⟩ := h
      exact hframe.append (ih hbody hf .nil)
  | orElse first second ihfirst ihsecond =>
      rw [isTypePart, Bool.and_eq_true] at hf
      obtain ⟨nodes, between, hfirst, h⟩ := h
      rcases h with ⟨_, hsecond⟩ | ⟨_, rfl, _⟩
      · exact ihsecond hsecond hf.2 hframe
      · exact hframe.append (ihfirst hfirst hf.1 .nil)
  | ifStuck first second ihfirst ihsecond =>
      rw [isTypePart, Bool.and_eq_true] at hf
      obtain ⟨middle, between, hfirst, h⟩ := h
      have hmiddle := ihfirst hfirst hf.1 hframe
      rcases h with ⟨_, hsecond⟩ | ⟨_, rfl, _⟩
      · exact ihsecond hsecond hf.2 hmiddle
      · exact hmiddle
  | rule r => exact h hf hframe

theorem Does.keepsWritten (h : f.Does Rule.KeepsWritten frame c frame' c')
    (hf : f.keepsWritten empty = true) (hempty : empty = true → frame = [])
    (hframe : AllWritten frame) : AllWritten frame' := by
  induction f generalizing frame c frame' c' empty with
  | done | splitAngle =>
      obtain ⟨rfl, _⟩ := h
      exact hframe
  | take kind =>
      obtain ⟨rfl, _⟩ := h
      exact Node.EveryIn.append hframe (.single (.leaf (.leaf kind _)))
  | missing problem =>
      obtain ⟨rfl, _⟩ := h
      exact Node.EveryIn.append hframe (.single (.missing ⟨nofun, nofun⟩))
  | discard kind =>
      obtain ⟨rfl, _⟩ := h
      exact Node.EveryIn.filter hframe _
  | seq first second ihfirst ihsecond =>
      rw [Form.keepsWritten, Bool.and_eq_true] at hf
      obtain ⟨middle, between, hfirst, hsecond⟩ := h
      exact ihsecond hsecond hf.2 nofun (ihfirst hfirst hf.1 hempty hframe)
  | choose look yes no ihyes ihno =>
      rw [Form.keepsWritten, Bool.and_eq_true] at hf
      rcases h with ⟨_, h⟩ | ⟨_, h⟩
      · exact ihyes h hf.1 hempty hframe
      · exact ihno h hf.2 hempty hframe
  | enclose label body ih =>
      obtain ⟨children, hbody, rfl⟩ := h
      rw [Form.keepsWritten] at hf
      split at hf
      next htype =>
          -- the frame is empty, so that all that is made a type comes from the body
          rw [Bool.and_eq_true] at hf
          obtain rfl := hempty hf.1
          rw [htype]
          exact ((hbody.mono fun _ _ _ _ _ => And.left).addsTypeParts hf.2 .nil).written
      next hother =>
          rw [Bool.and_eq_true, bne_iff_ne] at hf
          exact .around (.around hother hf.1) (ih hbody hf.2 hempty hframe)
  | within body ih =>
      obtain ⟨nodes, hbody, rfl⟩ := h
      exact Node.EveryIn.append hframe (ih hbody hf (fun _ => rfl) nofun)
  | orElse first second ihfirst ihsecond =>
      rw [Form.keepsWritten, Bool.and_eq_true] at hf
      obtain ⟨nodes, between, hfirst, h⟩ := h
      rcases h with ⟨_, hsecond⟩ | ⟨_, rfl, _⟩
      · exact ihsecond hsecond hf.2 hempty hframe
      · exact Node.EveryIn.append hframe (ihfirst hfirst hf.1 (fun _ => rfl) nofun)
  | ifStuck first second ihfirst ihsecond =>
      rw [Form.keepsWritten, Bool.and_eq_true] at hf
      obtain ⟨middle, between, hfirst, h⟩ := h
      have hmiddle := ihfirst hfirst hf.1 hempty hframe
      rcases h with ⟨_, hsecond⟩ | ⟨_, rfl, _⟩
      · exact ihsecond hsecond hf.2 nofun hmiddle
      · exact hmiddle
  | rule r =>
      rw [Form.keepsWritten, Bool.and_eq_true, Bool.or_eq_true, Bool.not_eq_true'] at hf
      refine h.2 hf.1 (fun hmakes => hempty ?_) hframe
      rcases hf.2 with hno | hyes
      · cases hno.symm.trans hmakes
      · exact hyes

end Form

namespace Rule

open Form Grammar

theorem isTypePart_form (r : Rule) (h : r.isTypePart = true) : r.form.isTypePart = true := by
  cases r with
  | nested n => cases n <;> rfl
  | nameRest b => cases b <;> rfl
  | typeArguments kind => cases kind <;> first | rfl | cases h
  | list close item => cases item <;> first | rfl | cases h
  | qualifiedName | annotationUse | annotations | dims | typeUse | typeName | skipTo => rfl
  | _ => cases h

theorem keepsWritten_binaryOperators (least : Nat) (levels : List (Nat × List TokenKind)) :
    (binaryOperators least levels).keepsWritten false = true := by
  induction levels with
  | nil => rfl
  | cons level levels ih =>
      unfold binaryOperators
      split <;> exact ih

theorem keepsWritten_form (r : Rule) (h : r.isProper = true) :
    r.form.keepsWritten r.makesType = true := by
  cases r with
  | operators least => exact keepsWritten_binaryOperators least binaryLevels
  | typeArguments kind | switch kind =>
      simp only [isProper, Bool.and_eq_true, bne_iff_ne] at h
      refine (if_neg h.1).trans (Bool.and_eq_true_iff.mpr ⟨?_, rfl⟩)
      exact bne_iff_ne.mpr h.2
  | nested n => cases n <;> rfl
  | classBody b | localVarDecl b | nameRest b => cases b <;> rfl
  | list close item => cases item <;> rfl
  | _ => rfl

variable {r : Rule} {frame frame' : Frame} {c c' : Cursor}

theorem Reads.keepsWritten (h : r.Reads frame c frame' c') : KeepsWritten r frame c frame' c' := by
  refine h.induct KeepsWritten fun r frame c frame' c' hform => ⟨?_, ?_⟩
  · exact fun hr => (hform.mono fun _ _ _ _ _ => And.left).addsTypeParts (isTypePart_form r hr)
  · exact fun hr => hform.keepsWritten (keepsWritten_form r hr)

end Rule

/-- No statement and no expression is part of a type or a name. -/
theorem Entry.parse_written (entry : Entry) (source : Bytes) :
    (entry.parse source).Every Node.Written := by
  obtain ⟨frame, c, hread⟩ := entry.read?_isSome source
  obtain ⟨node, rfl⟩ := Entry.read?_eq_singleton hread
  obtain ⟨-, hkeeps⟩ := Rule.Reads.keepsWritten ⟨_, hread⟩
  simp only [Entry.parse, hread]
  exact hkeeps (by cases entry <;> rfl) (fun _ => rfl) .nil node List.mem_cons_self

end DotCompletion
