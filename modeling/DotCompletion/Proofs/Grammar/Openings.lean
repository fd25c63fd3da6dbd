import DotCompletion.Proofs.Grammar.Names

/-!
# How qualifiers begin

A name at the beginning of an operand is a reference of its own. So the operand
in front of a dot never begins with a bare name: if a name stands in it without
a reference around it, as the type in `new F()` does, some other token comes
first.

The first leaf of a frame stays the first leaf while nodes are added behind it.
The argument follows a frame through a form by what is known of that leaf.
-/

namespace DotCompletion

open Skim (kindAt)

namespace Node

mutual

/-- The kind of the first leaf that has a token of the source; a reference counts
as a leaf. -/
def opening : Node → Option NodeKind
  | ⟨kind, _, token, _, children⟩ =>
    (((token.filter fun t => t.kind != .eof).map fun _ => kind).or (openingAll children)).map
      fun first => if kind = .referenceExpr then .referenceExpr else first

/-- The kind of the first leaf of a row of trees. -/
def openingAll : List Node → Option NodeKind
  | [] => none
  | n :: rest => n.opening.or (openingAll rest)

end

@[simp] theorem openingAll_nil : openingAll [] = none := rfl

@[simp] theorem openingAll_cons (n : Node) (rest : List Node) :
    openingAll (n :: rest) = n.opening.or (openingAll rest) := rfl

@[simp] theorem openingAll_append (front back : List Node) :
    openingAll (front ++ back) = (openingAll front).or (openingAll back) := by
  induction front with
  | nil => rfl
  | cons n front ih => simp only [List.cons_append, openingAll_cons, ih, Option.or_assoc]

theorem opening_eq (n : Node) : n.opening =
    (((n.token.filter fun t => t.kind != .eof).map fun _ => n.kind).or
      (openingAll n.children)).map
      fun first => if n.kind = .referenceExpr then .referenceExpr else first := by
  cases n
  rw [opening]

@[simp] theorem opening_missing (p : Position) (d : Diagnostic) : (missing p d).opening = none :=
  rfl

theorem opening_leaf (kind : NodeKind) {t : Token} (h : t.kind ≠ .eof) :
    (leaf kind t).opening = some kind := by
  rw [opening_eq]
  by_cases hkind : kind = .referenceExpr <;> simp [leaf, h, hkind]

theorem opening_leaf_ne (kind : NodeKind) (t : Token) (h : kind ≠ .identifier) :
    (leaf kind t).opening ≠ some .identifier := by
  rw [opening_eq]
  by_cases ht : t.kind = .eof
  · simp [leaf, ht]
  · by_cases hkind : kind = .referenceExpr <;> simp [leaf, hkind, h]

theorem opening_around (kind : NodeKind) (error : Option Diagnostic) (p : Position)
    (children : List Node) : (around kind error p children).opening =
      (openingAll children).map
        fun first => if kind = .referenceExpr then .referenceExpr else first := by
  rw [opening_eq]
  rfl

theorem opening_around_isSome (kind : NodeKind) (error : Option Diagnostic) (p : Position)
    (children : List Node) :
    (around kind error p children).opening.isSome = (openingAll children).isSome := by
  rw [opening_around, Option.isSome_map]

/-- What has a first leaf has a token. -/
theorem exists_of_openingAll {row : List Node}
    (h : ∀ n ∈ row, n.opening.isSome = true → ∃ v, v ∈ n.yield)
    (hsome : (openingAll row).isSome = true) : ∃ v, v ∈ yieldAll row := by
  induction row with
  | nil => cases hsome
  | cons n row ih =>
      rw [openingAll_cons, Option.isSome_or, Bool.or_eq_true] at hsome
      rcases hsome with hsome | hsome
      · obtain ⟨v, hv⟩ := h n List.mem_cons_self hsome
        exact ⟨v, by simp [hv]⟩
      · obtain ⟨v, hv⟩ := ih (fun m hm => h m (List.mem_cons_of_mem _ hm)) hsome
        exact ⟨v, by simp [hv]⟩

theorem exists_of_opening (n : Node) : n.opening.isSome = true → ∃ v, v ∈ n.yield := by
  induction n using Node.induct with
  | step n ih =>
      intro hsome
      rw [opening_eq, Option.isSome_map, Option.isSome_or, Bool.or_eq_true, Option.isSome_map]
        at hsome
      rw [yield_eq]
      rcases hsome with htoken | hchildren
      · obtain ⟨t, ht⟩ := Option.isSome_iff_exists.mp htoken
        exact ⟨t, List.mem_append_left _ (by simp [ht])⟩
      · obtain ⟨v, hv⟩ := exists_of_openingAll ih hchildren
        exact ⟨v, List.mem_append_right _ hv⟩

theorem openingAll_eq_none {row : List Node} (h : yieldAll row = []) : openingAll row = none := by
  by_contra hne
  obtain ⟨v, hv⟩ := exists_of_openingAll (fun n _ => n.exists_of_opening)
    (Option.isSome_iff_ne_none.mpr hne)
  rw [h] at hv
  cases hv

/-- The first child of a reference, if it is an expression, does not begin with a
bare name. -/
def Qualified (n : Node) : Prop :=
  n.kind = .referenceExpr → ∀ q ∈ n.children.head?, q.kind.isExpression = true →
    q.opening ≠ some .identifier

end Node

namespace Frame

/-- The nodes of the frame do not begin with a bare name. -/
def Bold (frame : Frame) : Prop := Node.openingAll frame ≠ some .identifier

/-- What comes next is not the beginning of the nodes. -/
structure Firm (frame : Frame) (c : Cursor) : Prop where
  bold : frame.Bold
  opened : c.rest = [] ∨ (Node.openingAll frame).isSome = true

/-- All references of the frame and below are qualified properly. -/
def AllQualified (frame : Frame) : Prop := ∀ n ∈ frame, n.Every Node.Qualified

theorem Bold.nil : Bold [] := nofun

theorem Bold.append {frame nodes : Frame} (h : frame.Bold) (h' : nodes.Bold) :
    Bold (frame ++ nodes) := by
  unfold Bold at *
  rw [Node.openingAll_append]
  cases hopening : Node.openingAll frame with
  | none => exact h'
  | some kind =>
      rw [hopening] at h
      exact h

theorem Bold.around {nodes : Frame} (kind : NodeKind) (error : Option Diagnostic) (p : Position)
    (h : kind = .referenceExpr ∨ nodes.Bold) : Bold [.around kind error p nodes] := by
  unfold Bold at *
  rw [Node.openingAll_cons, Node.openingAll_nil, Option.or_none, Node.opening_around]
  cases hopening : Node.openingAll nodes with
  | none => nofun
  | some first =>
      by_cases hkind : kind = .referenceExpr
      · simp [hkind]
      · have hnodes := h.resolve_left hkind
        rw [hopening] at hnodes
        simpa [hkind] using hnodes

/-- The head of a frame that does not begin with a bare name. -/
theorem Bold.head {frame : Frame} (h : frame.Bold) {q : Node} (hq : q ∈ frame.head?) :
    q.opening ≠ some .identifier := by
  cases frame with
  | nil => cases hq
  | cons n rest =>
      cases hq
      intro hopening
      exact h (by rw [Node.openingAll_cons, hopening]; rfl)

end Frame

/-! ## What is known of the first leaf -/

/-- What is known of the first leaf of a frame: nothing, that it is no bare name,
or that there is one already. -/
inductive Lead where
  | loose
  | bold
  | firm
deriving DecidableEq

namespace Lead

def Holds (frame : Frame) (c : Cursor) : Lead → Prop
  | loose => True
  | bold => frame.Bold
  | firm => frame.Firm c

/-- What is known if one of two things is. -/
def meet : Lead → Lead → Lead
  | loose, _ | _, loose => loose
  | bold, _ | _, bold => bold
  | firm, firm => firm

/-- What is known of a frame behind which nodes are put, by what is known of the
nodes. -/
def follow (front nodes : Lead) : Lead := if front = bold then nodes else front

variable {s t : Lead} {frame nodes : Frame} {c c' : Cursor}

theorem Holds.isBold (h : s.Holds frame c) (hs : s ≠ loose) : frame.Bold := by
  cases s with
  | loose => exact absurd rfl hs
  | bold => exact h
  | firm => exact Frame.Firm.bold h

theorem holds_of_bold (h : s = firm → frame.Firm c) (h' : s ≠ loose → frame.Bold) :
    s.Holds frame c := by
  cases s with
  | loose => trivial
  | bold => exact h' nofun
  | firm => exact h rfl

theorem Holds.meet_left (h : s.Holds frame c) (t : Lead) : (s.meet t).Holds frame c := by
  refine holds_of_bold (fun hfirm => ?_) (fun hbold => h.isBold ?_)
  · cases s <;> cases t <;> first | exact h | cases hfirm
  · rintro rfl
    exact hbold rfl

theorem Holds.meet_right (h : t.Holds frame c) (s : Lead) : (s.meet t).Holds frame c := by
  refine holds_of_bold (fun hfirm => ?_) (fun hbold => h.isBold ?_)
  · cases s <;> cases t <;> first | exact h | cases hfirm
  · rintro rfl
    cases s <;> exact hbold rfl

theorem Holds.of_eq {frame' : Frame} (h : s.Holds frame c)
    (heq : Node.openingAll frame' = Node.openingAll frame) (hended : c.rest = [] → c'.rest = []) :
    s.Holds frame' c' := by
  refine holds_of_bold (fun hfirm => ?_) (fun hbold => ?_)
  · subst hfirm
    exact ⟨by rw [Frame.Bold, heq]; exact h.bold, h.opened.imp hended fun hsome => heq ▸ hsome⟩
  · rw [Frame.Bold, heq]
    exact h.isBold hbold

theorem Holds.around (h : s.Holds nodes c) (kind : NodeKind) (error : Option Diagnostic)
    (p : Position) : s.Holds [.around kind error p nodes] c := by
  refine holds_of_bold (fun hfirm => ?_) (fun hbold => .around kind error p (.inr (h.isBold hbold)))
  subst hfirm
  refine ⟨.around kind error p (.inr h.bold), h.opened.imp_right fun hsome => ?_⟩
  rw [Node.openingAll_cons, Node.openingAll_nil, Option.or_none, Node.opening_around_isSome]
  exact hsome

theorem Holds.follow (h : s.Holds frame c) (h' : t.Holds nodes c')
    (hended : c.rest = [] → c'.rest = [] ∧ Node.openingAll nodes = none) :
    (s.follow t).Holds (frame ++ nodes) c' := by
  cases s with
  | loose => trivial
  | bold =>
      refine holds_of_bold (fun hfirm => ?_) (fun hbold => Frame.Bold.append h (h'.isBold hbold))
      change t = firm at hfirm
      subst hfirm
      refine ⟨Frame.Bold.append h h'.bold, h'.opened.imp_right fun hsome => ?_⟩
      rw [Node.openingAll_append, Option.isSome_or, hsome, Bool.or_true]
  | firm =>
      rcases h.opened with hend | hsome
      · obtain ⟨hend', hnone⟩ := hended hend
        have hnodes : nodes.Bold := by rw [Frame.Bold, hnone]; nofun
        exact ⟨Frame.Bold.append h.bold hnodes, .inl hend'⟩
      · obtain ⟨kind, hkind⟩ := Option.isSome_iff_exists.mp hsome
        have hsame : Node.openingAll (frame ++ nodes) = Node.openingAll frame := by
          rw [Node.openingAll_append, hkind]
          rfl
        exact ⟨by rw [Frame.Bold, hsame]; exact h.bold, .inr (by rw [hsame]; exact hsome)⟩

end Lead

namespace Rule

/-- The rules that are meant for a frame that does not begin with a bare name. -/
def needsBold : Rule → Bool
  | statement | statementBlock | block | exprStmt | initializer | arrayInit | switch _
  | caseLabel | expression | lambda | lambdaParameter | ternary | binary _ | unary | suffixes
  | methodRef | arguments | primary | creation | typeArguments _ => true
  | _ => false

/-- The rules that make nothing that begins with a bare name. -/
def givesBold : Rule → Bool
  | switch _ | suffixes | methodRef | primary | creation | dims => true
  | _ => false

/-- The tokens in front of which a rule makes nothing that begins with a bare
name. -/
def boldStarts : Rule → List TokenKind
  | typeUse => .kwVoid :: TokenKind.primitives
  | arguments => [.lparen]
  | _ => []

end Rule

namespace Form

/-- The form makes a list of type arguments without any and a name. -/
def isNameAlone : Form → Bool
  | seq (within (enclose (.plain .referenceParameterList) done)) (take .identifier) => true
  | _ => false

/-- What is known of the next token if the condition is met. -/
def seen (ahead : Option (List TokenKind)) : Look → Option (List TokenKind)
  | .next kinds => some kinds
  | _ => ahead

/-- What is known of the first leaf behind a form, where `ahead` is known of the
next token. Fails where a reference might be made whose qualifier begins with a
bare name. -/
def opens (ahead : Option (List TokenKind)) : Form → Lead → Option Lead
  | done, s | missing _, s | splitAngle, s => some s
  | discard _, _ => some .loose
  | take kind, s => some (s.follow (if kind = .identifier then .loose else .firm))
  | seq first second, s => (first.opens ahead s).bind (second.opens none)
  | choose look yes no, s =>
    (yes.opens (seen ahead look) s).bind fun t => (no.opens ahead s).map t.meet
  | enclose label body, s =>
    (body.opens ahead s).bind fun t =>
      if s ≠ .loose ∧ t ≠ .loose then some t
      else if label.kind = .referenceExpr then
        if s ≠ .loose ∧ body.isNameAlone = true then some .bold else none
      else some t
  | within body, s => (body.opens ahead .bold).map s.follow
  | orElse first second, s =>
    (first.opens ahead .bold).bind fun t => (second.opens none s).map (s.follow t).meet
  | ifStuck first second, s =>
    (first.opens ahead s).bind fun t => (second.opens none t).map t.meet
  | rule r, s =>
    if r.needsBold = true ∧ s = .loose then none
    else if s = .firm then some (if r.isSteady then .firm else .loose)
    else if s = .bold ∧ (r.givesBold = true ∨
      (ahead.map fun kinds => kinds.all r.boldStarts.contains).getD false = true) then some .bold
    else some .loose

end Form

namespace Grammar

theorem opens_binaryOperators (least : Nat) (levels : List (Nat × List TokenKind)) (s : Lead) :
    ∃ t, (binaryOperators least levels).opens none s = some t ∧ (s = .firm → t = .firm) := by
  induction levels with
  | nil => exact ⟨s, rfl, id⟩
  | cons level levels ih =>
      obtain ⟨t, ht, hfirm⟩ := ih
      unfold binaryOperators
      split
      next =>
          cases s with
          | loose =>
              refine ⟨Lead.loose.meet t, ?_, by simp⟩
              change ((binaryOperators least levels).opens none _).map _ = _
              rw [ht]
              rfl
          | bold =>
              refine ⟨Lead.firm.meet t, ?_, by simp⟩
              change ((binaryOperators least levels).opens none _).map _ = _
              rw [ht]
              rfl
          | firm =>
              refine ⟨Lead.firm, ?_, fun _ => rfl⟩
              change ((binaryOperators least levels).opens none _).map _ = _
              rw [ht, hfirm rfl]
              rfl
      next => exact ⟨t, ht, hfirm⟩

end Grammar

namespace Rule

theorem opens_form (r : Rule) :
    (r.form.opens none (if r.needsBold then .bold else .loose)).isSome = true := by
  cases r with
  | operators least =>
      obtain ⟨t, ht, _⟩ := Grammar.opens_binaryOperators least Grammar.binaryLevels .loose
      change (((Grammar.binaryOperators least Grammar.binaryLevels).opens none .loose).map
        _).isSome = true
      rw [ht]
      rfl
  | nested n => cases n <;> rfl
  | classBody b | localVarDecl b | nameRest b => cases b <;> rfl
  | list close item => cases item <;> rfl
  | _ => rfl

theorem opens_form_bold (r : Rule) (h : r.givesBold = true) :
    ∃ t, r.form.opens none .bold = some t ∧ t ≠ .loose := by
  cases r with
  | switch | suffixes | methodRef | primary | creation | dims => exact ⟨_, rfl, nofun⟩
  | _ => cases h

theorem opens_form_firm (r : Rule) (h : r.isSteady = true) :
    r.form.opens none .firm = some .firm := by
  cases r with
  | operators least =>
      obtain ⟨t, ht, hfirm⟩ := Grammar.opens_binaryOperators least Grammar.binaryLevels .firm
      change ((Grammar.binaryOperators least Grammar.binaryLevels).opens none .firm).map _ = _
      rw [ht, hfirm rfl]
      rfl
  | nested n => cases n <;> rfl
  | classBody b | localVarDecl b | nameRest b => cases b <;> rfl
  | list close item => cases item <;> rfl
  | member => cases h
  | _ => rfl

end Rule

/-! ## Forms and rules -/

/-- The tokens ahead of the cursor are tokens, and the token at their end is
none. -/
structure Cursor.Proper (c : Cursor) : Prop where
  solid : c.Solid
  eof : c.eof.kind = .eof

theorem Cursor.Onward.proper {c c' : Cursor} (h : Cursor.Onward c c') (hproper : c.Proper) :
    c'.Proper :=
  ⟨h.solid hproper.solid, by rw [h.eof]; exact hproper.eof⟩

/-- The cursor is at the end of the input. -/
structure Cursor.Ended (c : Cursor) : Prop where
  rest : c.rest = []
  eof : c.eof.kind = .eof

theorem Cursor.Ended.next {c : Cursor} (h : c.Ended) : c.next.kind = .eof := by
  rw [Cursor.next, h.rest]
  exact h.eof

theorem Cursor.Ended.advance {c : Cursor} (h : c.Ended) : c.advance = c := by
  rw [Cursor.advance, h.rest]

/-- At the end of the input no token is added. -/
def AddsNothing : Behaviour := fun _ frame c frame' c' =>
  c.Ended → c'.Ended ∧ Node.yieldAll frame' ⊆ Node.yieldAll frame

theorem Form.Does.addsNothing {f : Form} {frame frame' : Frame} {c c' : Cursor}
    (h : f.Does AddsNothing frame c frame' c') (hended : c.Ended) :
    c'.Ended ∧ Node.yieldAll frame' ⊆ Node.yieldAll frame := by
  induction f generalizing frame c frame' c' with
  | done =>
      obtain ⟨rfl, rfl⟩ := h
      exact ⟨hended, List.Subset.refl _⟩
  | missing =>
      obtain ⟨rfl, rfl⟩ := h
      exact ⟨hended, by simp⟩
  | take kind =>
      obtain ⟨rfl, rfl⟩ := h
      rw [hended.advance]
      exact ⟨hended, by simp [Node.yield_leaf_eof kind hended.next]⟩
  | splitAngle =>
      obtain ⟨rfl, rfl⟩ := h
      have hsplit : c.splitAngle = c := by rw [Cursor.splitAngle, hended.rest]
      rw [hsplit]
      exact ⟨hended, List.Subset.refl _⟩
  | discard kind =>
      obtain ⟨rfl, rfl⟩ := h
      refine ⟨hended, fun v hv => ?_⟩
      obtain ⟨n, hn, hv⟩ := Node.mem_yieldAll.mp hv
      exact Node.mem_yieldAll.mpr ⟨n, List.mem_of_mem_filter hn, hv⟩
  | seq first second ihfirst ihsecond =>
      obtain ⟨middle, between, hfirst, hsecond⟩ := h
      obtain ⟨hbetween, hmiddle⟩ := ihfirst hfirst hended
      obtain ⟨hended', hframe'⟩ := ihsecond hsecond hbetween
      exact ⟨hended', List.Subset.trans hframe' hmiddle⟩
  | choose look yes no ihyes ihno =>
      rcases h with ⟨_, hyes⟩ | ⟨_, hno⟩
      · exact ihyes hyes hended
      · exact ihno hno hended
  | enclose label body ih =>
      obtain ⟨children, hbody, rfl⟩ := h
      obtain ⟨hended', hchildren⟩ := ih hbody hended
      exact ⟨hended', by simpa using hchildren⟩
  | within body ih =>
      obtain ⟨nodes, hbody, rfl⟩ := h
      obtain ⟨hended', hnodes⟩ := ih hbody hended
      exact ⟨hended', by simp [List.subset_nil.mp hnodes]⟩
  | orElse first second ihfirst ihsecond =>
      obtain ⟨nodes, between, hfirst, hrest⟩ := h
      obtain ⟨hbetween, hnodes⟩ := ihfirst hfirst hended
      rcases hrest with ⟨_, hsecond⟩ | ⟨_, rfl, rfl⟩
      · exact ihsecond hsecond hbetween
      · exact ⟨hbetween, by simp [List.subset_nil.mp hnodes]⟩
  | ifStuck first second ihfirst ihsecond =>
      obtain ⟨middle, between, hfirst, hrest⟩ := h
      obtain ⟨hbetween, hmiddle⟩ := ihfirst hfirst hended
      rcases hrest with ⟨_, hsecond⟩ | ⟨_, rfl, rfl⟩
      · obtain ⟨hended', hframe'⟩ := ihsecond hsecond hbetween
        exact ⟨hended', List.Subset.trans hframe' hmiddle⟩
      · exact ⟨hbetween, hmiddle⟩
  | rule name => exact h hended

theorem Rule.Reads.addsNothing {r : Rule} {frame frame' : Frame} {c c' : Cursor}
    (h : r.Reads frame c frame' c') : AddsNothing r frame c frame' c' :=
  h.induct AddsNothing fun _ _ _ _ _ hform => hform.addsNothing

/-- What a rule makes of the first leaf. -/
structure Rule.Opens (r : Rule) (frame : Frame) (c : Cursor) (frame' : Frame) (c' : Cursor) :
    Prop where
  reads : r.Reads frame c frame' c'
  qualified : c.Proper → (r.needsBold = true → frame.Bold) → frame.AllQualified →
    frame'.AllQualified
  bold : c.Proper → r.givesBold = true → frame.Bold → frame'.Bold
  firm : c.Proper → r.isSteady = true → frame.Firm c → frame'.Firm c'
  start : c.Proper → kindAt c.rest 0 ∈ r.boldStarts → frame.Bold → frame'.Bold

/-- What a form that runs a rule tells of the first leaf. -/
theorem Rule.Opens.holds {r : Rule} {frame frame' : Frame} {c c' : Cursor}
    (h : r.Opens frame c frame' c') {ahead : Option (List TokenKind)} {s t : Lead}
    (hf : (Form.rule r).opens ahead s = some t) (hproper : c.Proper)
    (hahead : ∀ kinds ∈ ahead, kindAt c.rest 0 ∈ kinds) (hs : s.Holds frame c) :
    t.Holds frame' c' ∧ (frame.AllQualified → frame'.AllQualified) := by
  rw [Form.opens] at hf
  split at hf
  next => cases hf
  next hneeds =>
      refine ⟨?_, h.qualified hproper fun hr => hs.isBold fun hloose => hneeds ⟨hr, hloose⟩⟩
      split at hf
      next hfirm =>
          subst hfirm
          cases hf
          split
          next hsteady => exact h.firm hproper hsteady hs
          next => trivial
      next =>
          split at hf
          next hbold =>
              cases hf
              obtain ⟨rfl, hgives | hstart⟩ := hbold
              · exact h.bold hproper hgives hs
              · cases ahead with
                | none => cases hstart
                | some kinds =>
                    refine h.start hproper ?_ hs
                    have hkind := List.all_eq_true.mp hstart _ (hahead kinds rfl)
                    exact List.contains_iff_mem.mp hkind
          next =>
              cases hf
              trivial

namespace Frame.AllQualified

variable {frame nodes : Frame}

theorem append (h : frame.AllQualified) (h' : nodes.AllQualified) :
    AllQualified (frame ++ nodes) :=
  fun n hn => (List.mem_append.mp hn).elim (h n) (h' n)

theorem leaf (kind : NodeKind) (t : Token) : AllQualified [.leaf kind t] := by
  intro n hn
  rw [List.mem_singleton.mp hn]
  exact .leaf fun _ _ hq => nomatch hq

theorem missing (p : Position) (d : Diagnostic) : AllQualified [.missing p d] := by
  intro n hn
  rw [List.mem_singleton.mp hn]
  exact .missing fun _ _ hq => nomatch hq

theorem around {kind : NodeKind} {error : Option Diagnostic} {p : Position}
    (hown : kind = .referenceExpr → ∀ q ∈ nodes.head?, q.kind.isExpression = true →
      q.opening ≠ some .identifier)
    (h : nodes.AllQualified) : AllQualified [.around kind error p nodes] := by
  intro n hn
  rw [List.mem_singleton.mp hn]
  exact .intro hown h

end Frame.AllQualified

namespace Form

variable {f : Form} {frame frame' : Frame} {c c' : Cursor}

theorem holds_seen {look : Look} {ahead : Option (List TokenKind)}
    (hlook : look.holds frame c.rest = true) (hahead : ∀ kinds ∈ ahead, kindAt c.rest 0 ∈ kinds) :
    ∀ kinds ∈ seen ahead look, kindAt c.rest 0 ∈ kinds := by
  cases look with
  | next kinds =>
      rintro _ ⟨⟩
      simpa [Look.holds] using hlook
  | _ => exact hahead

/-- A leaf made of the next token comes first if nothing does. -/
theorem holds_leaf (hproper : c.Proper) (kind : NodeKind) :
    (if kind = .identifier then Lead.loose else .firm).Holds [.leaf kind c.next] c.advance := by
  split
  next => trivial
  next hkind =>
      have hbold : Frame.Bold [.leaf kind c.next] := by
        rw [Frame.Bold, Node.openingAll_cons, Node.openingAll_nil, Option.or_none]
        exact Node.opening_leaf_ne kind _ hkind
      refine ⟨hbold, ?_⟩
      by_cases hrest : c.rest = []
      · exact .inl ((Cursor.onward_advance c).ended hrest)
      · refine .inr ?_
        rw [Node.openingAll_cons, Node.opening_leaf kind (hproper.solid.next hrest).kind]
        rfl

/-- The qualifier of a name that stands alone is what the frame began with. -/
theorem Does.head_of_isNameAlone {goto : Behaviour} (h : f.Does goto frame c frame' c')
    (hf : f.isNameAlone = true) (hbold : frame.Bold) {q : Node} (hq : q ∈ frame'.head?)
    (hexpression : q.kind.isExpression = true) : q.opening ≠ some .identifier := by
  unfold isNameAlone at hf
  split at hf
  next =>
      obtain ⟨_, _, ⟨_, ⟨_, ⟨rfl, _⟩, rfl⟩, rfl⟩, rfl, _⟩ := h
      cases frame with
      | nil =>
          cases hq
          cases hexpression
      | cons n rest => exact hbold.head hq
  next => cases hf

namespace Does

theorem opens_onward (h : f.Does Rule.Opens frame c frame' c') : Cursor.Onward c c' :=
  h.onward fun _ _ _ _ _ h => h.reads.onward

/-- Nodes that are made at the end of the input have no first leaf. -/
theorem opens_ended (h : f.Does Rule.Opens [] c frame' c') (hproper : c.Proper)
    (hrest : c.rest = []) : c'.rest = [] ∧ Node.openingAll frame' = none := by
  obtain ⟨hended, hsubset⟩ :=
    addsNothing (h.mono fun _ _ _ _ _ h => h.reads.addsNothing) ⟨hrest, hproper.eof⟩
  exact ⟨hended.rest, Node.openingAll_eq_none (List.subset_nil.mp hsubset)⟩

/-- A node begins like its children, and a reference is qualified properly if they do not begin with
a bare name or if its name stands alone. -/
theorem opens_around {goto : Behaviour} {body : Form} {children : Frame} {kind : NodeKind}
    {s t u : Lead} (hbody : body.Does goto frame c children c')
    (hu : (if s ≠ .loose ∧ t ≠ .loose then some t
      else if kind = .referenceExpr then
        if s ≠ .loose ∧ body.isNameAlone = true then some .bold else none
      else some t) = some u)
    (hs : s.Holds frame c) (ht : t.Holds children c') (error : Option Diagnostic) (p : Position) :
    u.Holds [.around kind error p children] c' ∧
      (children.AllQualified → Frame.AllQualified [.around kind error p children]) := by
  split at hu
  next hknown =>
      cases hu
      exact ⟨ht.around _ _ _, .around fun _ q hq _ => (ht.isBold hknown.2).head hq⟩
  next =>
      split at hu
      next hkind =>
          split at hu
          next hname =>
              cases hu
              refine ⟨Frame.Bold.around _ _ _ (.inl hkind), .around fun _ q hq hexpression => ?_⟩
              exact hbody.head_of_isNameAlone hname.2 (hs.isBold hname.1) hq hexpression
          next => cases hu
      next hkind =>
          cases hu
          exact ⟨ht.around _ _ _, .around fun hreference => absurd hreference hkind⟩

theorem opens (h : f.Does Rule.Opens frame c frame' c') {ahead : Option (List TokenKind)}
    {s t : Lead} (hf : f.opens ahead s = some t) (hproper : c.Proper)
    (hahead : ∀ kinds ∈ ahead, kindAt c.rest 0 ∈ kinds) (hs : s.Holds frame c) :
    t.Holds frame' c' ∧ (frame.AllQualified → frame'.AllQualified) := by
  induction f generalizing frame c frame' c' ahead s t with
  | done =>
      obtain ⟨rfl, rfl⟩ := h
      cases hf
      exact ⟨hs, id⟩
  | missing =>
      obtain ⟨rfl, rfl⟩ := h
      cases hf
      exact ⟨hs.of_eq (by simp) id, fun hall => hall.append (.missing _ _)⟩
  | splitAngle =>
      obtain ⟨rfl, rfl⟩ := h
      cases hf
      exact ⟨hs.of_eq rfl (Cursor.onward_splitAngle c).ended, id⟩
  | discard kind =>
      obtain ⟨rfl, rfl⟩ := h
      cases hf
      exact ⟨trivial, fun hall n hn => hall n (List.mem_of_mem_filter hn)⟩
  | take kind =>
      obtain ⟨rfl, rfl⟩ := h
      cases hf
      refine ⟨hs.follow (holds_leaf hproper kind) fun hrest => ?_,
        fun hall => hall.append (.leaf _ _)⟩
      have hended : c.Ended := ⟨hrest, hproper.eof⟩
      rw [hended.advance]
      refine ⟨hrest, Node.openingAll_eq_none ?_⟩
      rw [Node.yieldAll_cons, Node.yield_leaf_eof kind hended.next]
      rfl
  | seq first second ihfirst ihsecond =>
      obtain ⟨middle, between, hfirst, hsecond⟩ := h
      obtain ⟨t', ht', ht⟩ := Option.bind_eq_some_iff.mp hf
      obtain ⟨hmiddle, hall⟩ := ihfirst hfirst ht' hproper hahead hs
      obtain ⟨hframe', hall'⟩ :=
        ihsecond hsecond ht (hfirst.opens_onward.proper hproper) (by rintro _ ⟨⟩) hmiddle
      exact ⟨hframe', hall' ∘ hall⟩
  | choose look yes no ihyes ihno =>
      obtain ⟨t', ht', hrest⟩ := Option.bind_eq_some_iff.mp hf
      obtain ⟨t'', ht'', rfl⟩ := Option.map_eq_some_iff.mp hrest
      rcases h with ⟨hlook, hyes⟩ | ⟨_, hno⟩
      · obtain ⟨hframe', hall⟩ := ihyes hyes ht' hproper (holds_seen hlook hahead) hs
        exact ⟨hframe'.meet_left _, hall⟩
      · obtain ⟨hframe', hall⟩ := ihno hno ht'' hproper hahead hs
        exact ⟨hframe'.meet_right _, hall⟩
  | enclose label body ih =>
      obtain ⟨children, hbody, rfl⟩ := h
      obtain ⟨t', ht', ht⟩ := Option.bind_eq_some_iff.mp hf
      obtain ⟨hchildren, hall⟩ := ih hbody ht' hproper hahead hs
      obtain ⟨hnode, hqualified⟩ := opens_around hbody ht hs hchildren _ _
      exact ⟨hnode, hqualified ∘ hall⟩
  | within body ih =>
      obtain ⟨nodes, hbody, rfl⟩ := h
      obtain ⟨t', ht', rfl⟩ := Option.map_eq_some_iff.mp hf
      obtain ⟨hnodes, hall⟩ := ih hbody ht' hproper hahead Frame.Bold.nil
      exact ⟨hs.follow hnodes (hbody.opens_ended hproper),
        fun h => h.append (hall fun _ hn => nomatch hn)⟩
  | orElse first second ihfirst ihsecond =>
      obtain ⟨nodes, between, hfirst, hrest⟩ := h
      obtain ⟨t', ht', hmap⟩ := Option.bind_eq_some_iff.mp hf
      obtain ⟨t'', ht'', rfl⟩ := Option.map_eq_some_iff.mp hmap
      obtain ⟨hnodes, hall⟩ := ihfirst hfirst ht' hproper hahead Frame.Bold.nil
      rcases hrest with ⟨_, hsecond⟩ | ⟨_, rfl, rfl⟩
      · obtain ⟨hframe', hall'⟩ := ihsecond hsecond ht'' (hfirst.opens_onward.proper hproper)
          (by rintro _ ⟨⟩) (hs.of_eq rfl hfirst.opens_onward.ended)
        exact ⟨hframe'.meet_right _, hall'⟩
      · exact ⟨(hs.follow hnodes (hfirst.opens_ended hproper)).meet_left _,
          fun h => h.append (hall fun _ hn => nomatch hn)⟩
  | ifStuck first second ihfirst ihsecond =>
      obtain ⟨middle, between, hfirst, hrest⟩ := h
      obtain ⟨t', ht', hmap⟩ := Option.bind_eq_some_iff.mp hf
      obtain ⟨t'', ht'', rfl⟩ := Option.map_eq_some_iff.mp hmap
      obtain ⟨hmiddle, hall⟩ := ihfirst hfirst ht' hproper hahead hs
      rcases hrest with ⟨_, hsecond⟩ | ⟨_, rfl, rfl⟩
      · obtain ⟨hframe', hall'⟩ := ihsecond hsecond ht'' (hfirst.opens_onward.proper hproper)
          (by rintro _ ⟨⟩) hmiddle
        exact ⟨hframe'.meet_right _, hall' ∘ hall⟩
      · exact ⟨hmiddle.meet_left _, hall⟩
  | rule r => exact Rule.Opens.holds h hf hproper hahead hs

theorem bold_of_opens (h : f.Does Rule.Opens frame c frame' c') {t : Lead}
    (hf : f.opens none .bold = some t) (ht : t ≠ .loose) (hproper : c.Proper)
    (hbold : frame.Bold) : frame'.Bold :=
  (h.opens hf hproper (by rintro _ ⟨⟩) hbold).1.isBold ht

end Does

end Form

namespace Rule

variable {frame frame' : Frame} {c c' : Cursor}

/-- A primitive type begins with a keyword. -/
theorem opens_typeUse (h : typeUse.form.Does Opens frame c frame' c') (hproper : c.Proper)
    (hnext : kindAt c.rest 0 ∈ boldStarts typeUse) (hbold : frame.Bold) : frame'.Bold := by
  obtain ⟨children, ⟨middle, between, hannotations, htype⟩, rfl⟩ := h
  have hnone : kindAt c.rest 0 ≠ .atSign := by
    rintro heq
    rw [heq] at hnext
    exact absurd hnext (by decide)
  have hprimitive : ∀ k ∈ boldStarts typeUse,
      k ∈ TokenKind.primitives ++ [TokenKind.kwVoid, .kwVar] := by
    decide
  have hlook : ∀ nodes,
      (Look.next (TokenKind.primitives ++ [TokenKind.kwVoid, .kwVar])).holds nodes c.rest =
      true := fun _ => by simpa [Look.holds] using hprimitive _ hnext
  rcases hannotations.reads.elim with ⟨hat, _⟩ | ⟨_, rfl, rfl⟩
  · simp [Look.holds, hnone] at hat
  · rcases htype with ⟨_, hkeyword⟩ | ⟨hnot, _⟩
    · exact .around _ _ _ (.inr (Form.Does.bold_of_opens hkeyword rfl (by rintro ⟨⟩) hproper hbold))
    · rw [hlook] at hnot
      cases hnot

/-- Arguments begin with their bracket. -/
theorem opens_arguments (h : arguments.form.Does Opens frame c frame' c') (hproper : c.Proper)
    (hnext : kindAt c.rest 0 ∈ boldStarts arguments) (hbold : frame.Bold) : frame'.Bold := by
  obtain ⟨children, ⟨middle', between', ⟨middle, between, hopen, hlist⟩, hclose⟩, rfl⟩ := h
  rcases hopen with ⟨_, htoken⟩ | ⟨hnot, _⟩
  · have hbehind : (Form.token ++ (.rule (.list .rparen .expression) ++ Form.expect .rparen)).Does
        Opens frame c children c' :=
      ⟨middle, between, htoken, middle', between', hlist, hclose⟩
    exact .around _ _ _ (.inr (hbehind.bold_of_opens rfl nofun hproper hbold))
  · simp only [boldStarts, List.mem_singleton] at hnext
    simp [Look.holds, hnext] at hnot

theorem Reads.opens {r : Rule} (h : r.Reads frame c frame' c') : r.Opens frame c frame' c' := by
  refine h.induct Opens ?_
  intro r frame c frame' c' hform
  have hnone : ∀ kinds ∈ (none : Option (List TokenKind)), kindAt c.rest 0 ∈ kinds := by
    rintro _ ⟨⟩
  refine
    { reads := .intro (hform.mono fun _ _ _ _ _ h => h.reads), qualified := ?_, bold := ?_,
      firm := ?_, start := ?_ }
  · intro hproper hbold hall
    obtain ⟨t, ht⟩ := Option.isSome_iff_exists.mp r.opens_form
    refine (hform.opens ht hproper hnone ?_).2 hall
    split
    next hneeds => exact hbold hneeds
    next => trivial
  · intro hproper hgives hbold
    obtain ⟨t, ht, hne⟩ := r.opens_form_bold hgives
    exact hform.bold_of_opens ht hne hproper hbold
  · intro hproper hsteady hfirm
    exact (hform.opens (r.opens_form_firm hsteady) hproper hnone
      (show Lead.firm.Holds _ _ from hfirm)).1
  · intro hproper hnext hbold
    cases r with
    | typeUse => exact opens_typeUse hform hproper hnext hbold
    | arguments => exact opens_arguments hform hproper hnext hbold
    | _ => cases hnext

end Rule

/-- No qualifier in a tree begins with a bare name. -/
theorem Entry.parse_qualified (entry : Entry) (source : Bytes) :
    (entry.parse source).Every Node.Qualified := by
  obtain ⟨frame, c, hread⟩ := entry.read?_isSome source
  obtain ⟨node, rfl⟩ := Entry.read?_eq_singleton hread
  have hopens : entry.rule.Opens [] (Cursor.ofSource source) [node] c :=
    Rule.Reads.opens ⟨_, hread⟩
  simp only [Entry.parse, hread]
  exact hopens.qualified ⟨Cursor.ofSource_solid source, rfl⟩ (fun _ => Frame.Bold.nil)
    (List.forall_mem_nil _) node List.mem_cons_self

end DotCompletion
