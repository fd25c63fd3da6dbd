import DotCompletion.Proofs.Grammar.Termination
import DotCompletion.Proofs.Node.Yield

/-!
# What references and expression statements are made of

A reference is made in two places: of a name that begins an operand, and of a name
behind an operand and a dot. An expression statement is made in one place, and a
node carries a diagnostic if and only if it marks an error. No other form makes
nodes of these kinds, which its looks show.
-/

namespace DotCompletion

namespace Node

/-- The children of a reference: a name behind an empty list of type arguments, or
a name, which may be missing, behind something and a dot. -/
inductive FormsReference : List Node → Prop
  | alone (p : Position) (t : Token) :
      FormsReference [.around .referenceParameterList none p [], .leaf .identifier t]
  | named (front list : List Node) {dot : Token} (hdot : dot.kind = .dot) (t : Token) :
      FormsReference (front ++ [.leaf .token dot] ++ list ++ [.leaf .identifier t])
  | unnamed (front list : List Node) {dot : Token} (hdot : dot.kind = .dot) (p : Position)
      (d : Diagnostic) :
      FormsReference (front ++ [.leaf .token dot] ++ list ++ [.missing p d])

/-- The children of an expression statement: something in front of a semicolon,
which may be missing. -/
inductive FormsStatement : List Node → Prop
  | closed (front : List Node) {t : Token} (ht : t.kind = .semicolon) :
      FormsStatement (front ++ [.leaf .token t])
  | unclosed (front : List Node) (p : Position) (d : Diagnostic) :
      FormsStatement (front ++ [.missing p d])

structure Formed (n : Node) : Prop where
  error : n.error.isSome = true ↔ n.kind = .error
  reference : n.kind = .referenceExpr → FormsReference n.children
  statement : n.kind = .exprStmt → FormsStatement n.children

end Node

namespace NodeKind

/-- Nothing is asked of nodes of this kind. -/
def isOrdinary (kind : NodeKind) : Bool :=
  kind != error && kind != referenceExpr && kind != exprStmt

end NodeKind

namespace Node

variable {kind : NodeKind}

theorem Formed.ofOrdinary (h : kind.isOrdinary = true) {n : Node} (hn : n.kind = kind)
    (herror : n.error = none) : n.Formed := by
  simp only [NodeKind.isOrdinary, Bool.and_eq_true, bne_iff_ne] at h
  subst hn
  constructor
  · simp [herror, h.1.1]
  · exact fun hkind => absurd hkind h.1.2
  · exact fun hkind => absurd hkind h.2

theorem Formed.ofFault (d : Diagnostic) (p : Position) (children : List Node) :
    (around .error (some d) p children).Formed :=
  ⟨by simp [around], nofun, nofun⟩

theorem Formed.ofMissing (p : Position) (d : Diagnostic) : (missing p d).Formed :=
  ⟨by simp [missing], nofun, nofun⟩

theorem Formed.ofReference (p : Position) {children : List Node}
    (h : FormsReference children) : (around .referenceExpr none p children).Formed :=
  ⟨by simp [around], fun _ => h, nofun⟩

theorem Formed.ofStatement (p : Position) {children : List Node}
    (h : FormsStatement children) : (around .exprStmt none p children).Formed :=
  ⟨by simp [around], nofun, fun _ => h⟩

end Node

def AllFormed (frame : Frame) : Prop := ∀ n ∈ frame, n.Every Node.Formed

namespace AllFormed

variable {frame frame' : Frame} {n : Node}

theorem nil : AllFormed [] := Node.EveryIn.nil

theorem append (h : AllFormed frame) (h' : AllFormed frame') : AllFormed (frame ++ frame') :=
  Node.EveryIn.append h h'

theorem single (h : n.Every Node.Formed) : AllFormed [n] := Node.EveryIn.single h

theorem around {kind : NodeKind} {error : Option Diagnostic} {p : Position}
    (hown : (Node.around kind error p frame).Formed) (h : AllFormed frame) :
    AllFormed [.around kind error p frame] :=
  single (.intro hown h)

theorem leaf {kind : NodeKind} (h : kind.isOrdinary = true) (t : Token) :
    AllFormed [.leaf kind t] :=
  single (.leaf (.ofOrdinary h rfl rfl))

theorem missing (p : Position) (d : Diagnostic) : AllFormed [.missing p d] :=
  single (.missing (.ofMissing p d))

end AllFormed

/-! ## Forms that make ordinary nodes -/

theorem Cursor.next_mem {c : Cursor} {kinds : List TokenKind} {frame : Frame}
    (h : (Look.next kinds).holds frame c.rest = true) (heof : .eof ∉ kinds) :
    c.rest ≠ [] ∧ c.next.kind ∈ kinds := by
  have hrest : c.rest ≠ [] := by
    intro hrest
    rw [hrest] at h
    exact heof (by simpa [Look.holds, Skim.kindAt] using h)
  refine ⟨hrest, ?_⟩
  rw [← Cursor.kindAt_rest hrest]
  simpa [Look.holds] using h

namespace Rule

/-- The rules that may be referred to. -/
def isOrdinary : Rule → Bool
  | typeArguments kind | switch kind => kind.isOrdinary
  | _ => true

/-- The rules that begin an operand, which is the only node of its frame. -/
def needsEmpty : Rule → Bool
  | expression | ternary | binary _ | unary | primary | initializer | caseLabel => true
  | _ => false

/-- A rule keeps the nodes formed. -/
def Forms : Behaviour := fun r frame _ frame' _ =>
  r.isOrdinary = true → (r.needsEmpty = true → frame = []) → AllFormed frame → AllFormed frame'

end Rule

namespace Form

/-- The form makes ordinary nodes only, and begins operands in empty frames. -/
def ordinary (empty : Bool) : Form → Bool
  | take kind => kind.isOrdinary
  | seq first second | ifStuck first second => first.ordinary empty && second.ordinary false
  | choose _ yes no => yes.ordinary empty && no.ordinary empty
  | enclose (.plain kind) body => kind.isOrdinary && body.ordinary empty
  | enclose (.fault _) body => body.ordinary empty
  | within body => body.ordinary true
  | orElse first second => first.ordinary true && second.ordinary empty
  | rule r => r.isOrdinary && (!r.needsEmpty || empty)
  | _ => true

variable {f : Form} {frame frame' : Frame} {c c' : Cursor} {empty : Bool}

theorem Does.formed (h : f.Does Rule.Forms frame c frame' c') (hf : f.ordinary empty = true)
    (hempty : empty = true → frame = []) (hframe : AllFormed frame) : AllFormed frame' := by
  induction f generalizing frame c frame' c' empty with
  | done | splitAngle =>
      obtain ⟨rfl, _⟩ := h
      exact hframe
  | take kind =>
      obtain ⟨rfl, _⟩ := h
      exact hframe.append (.leaf hf _)
  | missing problem =>
      obtain ⟨rfl, _⟩ := h
      exact hframe.append (.missing _ _)
  | discard kind =>
      obtain ⟨rfl, _⟩ := h
      exact fun n hn => hframe n (List.mem_filter.mp hn).1
  | seq first second ihfirst ihsecond =>
      simp only [ordinary, Bool.and_eq_true] at hf
      obtain ⟨middle, between, hfirst, hsecond⟩ := h
      exact ihsecond hsecond hf.2 nofun (ihfirst hfirst hf.1 hempty hframe)
  | choose look yes no ihyes ihno =>
      simp only [ordinary, Bool.and_eq_true] at hf
      rcases h with ⟨_, h⟩ | ⟨_, h⟩
      · exact ihyes h hf.1 hempty hframe
      · exact ihno h hf.2 hempty hframe
  | enclose label body ih =>
      obtain ⟨children, hbody, rfl⟩ := h
      cases label with
      | plain kind =>
          simp only [ordinary, Bool.and_eq_true] at hf
          exact .around (.ofOrdinary hf.1 rfl rfl) (ih hbody hf.2 hempty hframe)
      | fault cause => exact .around (.ofFault _ _ _) (ih hbody hf hempty hframe)
  | within body ih =>
      obtain ⟨nodes, hbody, rfl⟩ := h
      exact hframe.append (ih hbody hf (fun _ => rfl) .nil)
  | orElse first second ihfirst ihsecond =>
      simp only [ordinary, Bool.and_eq_true] at hf
      obtain ⟨nodes, between, hfirst, h⟩ := h
      rcases h with ⟨_, hsecond⟩ | ⟨_, rfl, _⟩
      · exact ihsecond hsecond hf.2 hempty hframe
      · exact hframe.append (ihfirst hfirst hf.1 (fun _ => rfl) .nil)
  | ifStuck first second ihfirst ihsecond =>
      simp only [ordinary, Bool.and_eq_true] at hf
      obtain ⟨middle, between, hfirst, h⟩ := h
      have hmiddle := ihfirst hfirst hf.1 hempty hframe
      rcases h with ⟨_, hsecond⟩ | ⟨_, rfl, _⟩
      · exact ihsecond hsecond hf.2 nofun hmiddle
      · exact hmiddle
  | rule r =>
      simp only [ordinary, Bool.and_eq_true, Bool.or_eq_true, Bool.not_eq_true'] at hf
      refine h hf.1 (fun hneeds => hempty ?_) hframe
      rcases hf.2 with hno | hyes
      · rw [hneeds] at hno
        cases hno
      · exact hyes

end Form

namespace Grammar

theorem ordinary_binaryOperators (least : Nat) (levels : List (Nat × List TokenKind)) :
    (binaryOperators least levels).ordinary false = true := by
  induction levels with
  | nil => rfl
  | cons level levels ih =>
      unfold binaryOperators
      split
      next =>
          change (true && (binaryOperators least levels).ordinary false) = true
          rw [ih]
          rfl
      next => exact ih

end Grammar

namespace Rule

open Form Grammar

/-- The rules that make references and expression statements. -/
def makesSpecial : Rule → Bool
  | suffixes | primary | exprStmt => true
  | _ => false

theorem ordinary_form (r : Rule) (h : r.isOrdinary = true) (hr : r.makesSpecial = false) :
    r.form.ordinary r.needsEmpty = true := by
  cases r with
  | operators least =>
      change (true && (binaryOperators least binaryLevels).ordinary false) = true
      rw [ordinary_binaryOperators]
      rfl
  | typeArguments kind | switch kind =>
      change (kind.isOrdinary && true) = true
      rw [show kind.isOrdinary = true from h]
      rfl
  | nested n => cases n <;> rfl
  | classBody b | localVarDecl b | nameRest b => cases b <;> rfl
  | list close item => cases item <;> rfl
  | suffixes | primary | exprStmt => cases hr
  | _ => rfl

variable {frame frame' : Frame} {c c' : Cursor}

theorem exprStmt_forms (h : exprStmt.form.Does Forms frame c frame' c') (hframe : AllFormed frame) :
    AllFormed frame' := by
  obtain ⟨_, ⟨_, between, ⟨nodes, hbody, rfl⟩, hsign⟩, rfl⟩ := h
  have hfront := hframe.append (hbody rfl (fun _ => rfl) .nil)
  rcases hsign with ⟨hsemicolon, rfl, rfl⟩ | ⟨_, rfl, rfl⟩
  · obtain ⟨_, hkind⟩ := Cursor.next_mem hsemicolon (by decide)
    apply AllFormed.around (.ofStatement _ (.closed _ (List.mem_singleton.mp hkind)))
    exact hfront.append (.leaf rfl _)
  · apply AllFormed.around (.ofStatement _ (.unclosed _ _ _))
    exact hfront.append (.missing _ _)

/-- A list of type arguments, or an empty one, and a name behind a dot. -/
theorem reference_forms {dot : Token} {front : Frame} (hdot : dot.kind = .dot)
    (hframe : AllFormed (front ++ [Node.leaf .token dot]))
    (h : (node .referenceExpr
      (.choose (.next [.less]) (call (.typeArguments .referenceParameterList))
        (fresh .referenceParameterList .done) ++ expectName)).Does Forms
          (front ++ [Node.leaf .token dot]) c frame' c') : AllFormed frame' := by
  obtain ⟨_, ⟨middle, between, hlist, hname⟩, rfl⟩ := h
  obtain ⟨list, rfl, hformed⟩ : ∃ list, middle = front ++ [Node.leaf .token dot] ++ list ∧
      AllFormed list := by
    rcases hlist with ⟨_, list, hlist, rfl⟩ | ⟨_, list, hlist, rfl⟩
    · exact ⟨list, rfl, hlist rfl nofun .nil⟩
    · exact ⟨list, rfl, @Does.formed _ _ _ _ _ true hlist rfl (fun _ => rfl) .nil⟩
  have hmiddle := hframe.append hformed
  rcases hname with ⟨_, rfl, rfl⟩ | ⟨_, rfl, rfl⟩
  · apply AllFormed.around (.ofReference _ (.named front list hdot _))
    exact hmiddle.append (.leaf rfl _)
  · apply AllFormed.around (.ofReference _ (.unnamed front list hdot _ _))
    exact hmiddle.append (.missing _ _)

theorem suffixes_forms (h : suffixes.form.Does Forms frame c frame' c') (hframe : AllFormed frame) :
    AllFormed frame' := by
  rcases h with ⟨hdot, _, behind, hsuffix, hmore⟩ | ⟨_, h⟩
  · apply hmore rfl nofun
    obtain ⟨_, hkind⟩ := Cursor.next_mem hdot (by decide)
    obtain ⟨_, _, ⟨rfl, rfl⟩, hsuffix⟩ := hsuffix
    have hfront := hframe.append (AllFormed.leaf rfl c.next : AllFormed [.leaf .token c.next])
    rcases hsuffix with ⟨_, h⟩ | ⟨_, ⟨_, h⟩ | ⟨_, ⟨_, h⟩ | ⟨_, ⟨_, h⟩ | ⟨_, h⟩⟩⟩⟩
    · exact @Does.formed _ _ _ _ _ false h rfl nofun hfront
    · exact @Does.formed _ _ _ _ _ false h rfl nofun hfront
    · exact @Does.formed _ _ _ _ _ false h rfl nofun hfront
    · exact @Does.formed _ _ _ _ _ false h rfl nofun hfront
    · exact reference_forms (List.mem_singleton.mp hkind) hfront h
  · exact @Does.formed _ _ _ _ _ false h rfl nofun hframe

theorem primary_forms (h : primary.form.Does Forms [] c frame' c') : AllFormed frame' := by
  have hother {f : Form} {c c' : Cursor} (h : f.Does Forms [] c frame' c')
      (hf : f.ordinary true = true) : AllFormed frame' := h.formed hf (fun _ => rfl) .nil
  rcases h with ⟨_, h⟩ | ⟨_, ⟨_, h⟩ | ⟨_, ⟨_, h⟩ | ⟨_, ⟨_, h⟩ | ⟨_, ⟨_, h⟩ | ⟨_, ⟨_, h⟩ |
    ⟨_, ⟨_, h⟩ | ⟨_, ⟨_, h⟩ | ⟨_, h⟩⟩⟩⟩⟩⟩⟩⟩
  case inr.inr.inr.inr.inr.inr.inr.inl =>
    obtain ⟨_, ⟨_, _, ⟨_, ⟨_, ⟨rfl, rfl⟩, rfl⟩, rfl⟩, rfl, rfl⟩, rfl⟩ := h
    apply AllFormed.around (.ofReference _ (.alone _ _))
    exact .append (.around (.ofOrdinary rfl rfl rfl) .nil) (.leaf rfl _)
  all_goals exact hother h rfl

/-- Every rule keeps the nodes formed. -/
theorem Reads.forms {r : Rule} (h : r.Reads frame c frame' c') : Forms r frame c frame' c' := by
  refine h.induct Forms ?_
  intro r frame c frame' c' hform hr hempty hframe
  cases hspecial : r.makesSpecial with
  | false => exact hform.formed (ordinary_form r hr hspecial) hempty hframe
  | true =>
      cases r with
      | suffixes => exact suffixes_forms hform hframe
      | exprStmt => exact exprStmt_forms hform hframe
      | primary =>
          obtain rfl := hempty rfl
          exact primary_forms hform
      | _ => cases hspecial

end Rule

end DotCompletion
