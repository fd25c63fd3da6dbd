import DotCompletion.Proofs.Grammar.Formed
import DotCompletion.Proofs.Grammar.Losses

/-!
# Where a missing semicolon is marked

An expression statement without its semicolon ends in an empty node right behind
the last token taken. That is the last token of the statement, if it has any, and
else the last one of the siblings in front of it: a statement without a token is
kept only behind a token of the node around it, which the forms show by their
looks.
-/

namespace DotCompletion

open Skim (kindAt)

/-! ## The last token -/

namespace Token

/-- Where the last token of a row ends; without tokens, the place given. -/
def lastStop (before : Option Position) (row : List Token) : Option Position :=
  (row.getLast?.map fun t => t.span.stop).or before

variable {before before' : Option Position}

@[simp] theorem lastStop_nil : lastStop before [] = before := rfl

theorem lastStop_append (row row' : List Token) :
    lastStop before (row ++ row') = lastStop (lastStop before row) row' := by
  simp only [lastStop, List.getLast?_append]
  cases row'.getLast? <;> rfl

theorem lastStop_of_ne_nil {row : List Token} (h : row ≠ []) :
    ∃ t ∈ row.getLast?, ∀ before, lastStop before row = some t.span.stop := by
  refine ⟨row.getLast h, List.getLast?_eq_some_getLast h, fun before => ?_⟩
  rw [lastStop, List.getLast?_eq_some_getLast h]
  rfl

end Token

open Token (lastStop lastStop_append)

/-! ## Closed statements -/

namespace Node

/-- If the node is a statement without its semicolon, this is marked at the end of
the last token, where `row` stands in front of the node. -/
def ClosedBehind (row : List Token) (n : Node) : Prop :=
  n.kind = .exprStmt → ∀ x ∈ n.children.getLast?, x.token = none →
    ∃ t ∈ (row ++ n.yield).getLast?, x.span = .point t.span.stop

theorem ClosedBehind.mono {row : List Token} {n : Node} (h : n.ClosedBehind row)
    (front : List Token) : n.ClosedBehind (front ++ row) := by
  intro hkind x hx htoken
  obtain ⟨t, ht, hspan⟩ := h hkind x hx htoken
  refine ⟨t, ?_, hspan⟩
  rw [List.append_assoc, List.getLast?_append, Option.mem_def.mp ht]
  rfl

end Node

namespace Frame

/-- All statements of a frame behind a row of tokens are closed. -/
def Closed : List Token → Frame → Prop
  | _, [] => True
  | row, n :: rest => n.ClosedBehind row ∧ Closed (row ++ n.yield) rest

variable {row : List Token} {frame nodes : Frame} {c c' : Cursor} {before : Option Position}

theorem closed_append : Closed row (frame ++ nodes) ↔
    Closed row frame ∧ Closed (row ++ Node.yieldAll frame) nodes := by
  induction frame generalizing row with
  | nil => simp [Closed]
  | cons n frame ih => simp [Closed, ih, and_assoc]

theorem Closed.mono (h : Closed row frame) (front : List Token) : Closed (front ++ row) frame := by
  induction frame generalizing row with
  | nil => trivial
  | cons n frame ih =>
      refine ⟨h.1.mono front, ?_⟩
      rw [List.append_assoc]
      exact ih h.2

theorem Closed.append (h : Closed [] frame) (h' : Closed [] nodes) : Closed [] (frame ++ nodes) := by
  rw [closed_append]
  refine ⟨h, ?_⟩
  have hmono := h'.mono (Node.yieldAll frame)
  rwa [List.append_nil] at hmono

theorem closed_single {n : Node} (h : n.kind ≠ .exprStmt) : Closed row [n] :=
  ⟨fun hkind => absurd hkind h, trivial⟩

/-- The frame is one statement whose missing semicolon is marked at the cursor. -/
def OpenEnd (frame : Frame) (c : Cursor) : Prop :=
  ∃ n, frame = [n] ∧ ∀ x ∈ n.children.getLast?, x.token = none → x.span = .point c.behind

/-- The last token of the frame is the one taken last, and below its nodes all
statements are closed. -/
structure Ends (before : Option Position) (frame : Frame) (c : Cursor) : Prop where
  last : c.last = lastStop before (Node.yieldAll frame)
  inner : ∀ n ∈ frame, n.Every fun m => Closed [] m.children

namespace Ends

theorem nil (c : Cursor) : Ends c.last [] c :=
  ⟨rfl, fun _ hn => nomatch hn⟩

theorem move (h : Ends before frame c) (hlast : c'.last = c.last) : Ends before frame c' :=
  ⟨hlast.trans h.last, h.inner⟩

theorem append (h : Ends before frame c) (h' : Ends c.last nodes c') :
    Ends before (frame ++ nodes) c' := by
  constructor
  · rw [h'.last, h.last, Node.yieldAll_append, lastStop_append]
  · intro n hn
    exact (List.mem_append.mp hn).elim (h.inner n) (h'.inner n)

/-- In front of nodes with a token it does not matter what was taken. -/
theorem append_of_ne_nil {last : Option Position} (h : Ends before frame c)
    (h' : Ends last nodes c') (hne : Node.yieldAll nodes ≠ []) : Ends before (frame ++ nodes) c' := by
  obtain ⟨t, _, hstop⟩ := Token.lastStop_of_ne_nil hne
  constructor
  · rw [h'.last, Node.yieldAll_append, lastStop_append, hstop, hstop]
  · intro n hn
    exact (List.mem_append.mp hn).elim (h.inner n) (h'.inner n)

theorem leaf (hproper : c.Proper) (kind : NodeKind) :
    Ends c.last [.leaf kind c.next] c.advance := by
  constructor
  · cases hrest : c.rest with
    | nil =>
        have heof := Cursor.Ended.next ⟨hrest, hproper.eof⟩
        rw [Cursor.advance, hrest]
        simp [Node.yield_leaf_eof kind heof]
    | cons t rest =>
        have hne : c.rest ≠ [] := by simp [hrest]
        have hkind := (hproper.solid.next hne).kind
        have hnext : c.next = t := by rw [Cursor.next, hrest]; rfl
        rw [Node.yieldAll_cons, Node.yield_leaf kind hkind, hnext, Cursor.advance, hrest]
        rfl
  · intro n hn
    rw [List.mem_singleton.mp hn]
    exact .leaf trivial

theorem missing (p : Position) (d : Diagnostic) (c : Cursor) : Ends c.last [.missing p d] c := by
  refine ⟨rfl, fun n hn => ?_⟩
  rw [List.mem_singleton.mp hn]
  exact .missing trivial

theorem around (h : Ends before frame c) (hclosed : Closed [] frame) (kind : NodeKind)
    (error : Option Diagnostic) (p : Position) : Ends before [.around kind error p frame] c := by
  refine ⟨by simpa using h.last, fun n hn => ?_⟩
  rw [List.mem_singleton.mp hn]
  exact .intro hclosed h.inner

/-- A statement that is open at the cursor is closed behind a token. -/
theorem closed_append_open (h : Ends before (frame ++ nodes) c) (hclosed : Closed [] frame)
    (hopen : Closed [] nodes ∨ nodes.OpenEnd c)
    (htoken : Node.yieldAll (frame ++ nodes) ≠ []) : Closed [] (frame ++ nodes) := by
  rcases hopen with hnodes | ⟨n, rfl, hn⟩
  · exact hclosed.append hnodes
  · rw [closed_append]
    refine ⟨hclosed, fun _ x hx hnone => ?_, trivial⟩
    obtain ⟨t, ht, hstop⟩ := Token.lastStop_of_ne_nil htoken
    refine ⟨t, ?_, ?_⟩
    · simpa using ht
    · rw [hn x hx hnone, Cursor.behind, h.last, hstop]
      rfl

end Ends

/-- The frame ends at the cursor, its statements are closed, and it has a token if it is `full`. -/
structure Footed (before : Option Position) (frame : Frame) (c : Cursor) (full : Bool) : Prop where
  ends : frame.Ends before c
  closed : Closed [] frame
  token : full = true → Node.yieldAll frame ≠ []

namespace Footed

variable {full full' : Bool}

theorem nil (c : Cursor) : Footed c.last [] c false :=
  ⟨.nil c, trivial, nofun⟩

theorem weaken (h : Footed before frame c full) (himp : full' = true → full = true) :
    Footed before frame c full' :=
  ⟨h.ends, h.closed, fun hfull => h.token (himp hfull)⟩

theorem move (h : Footed before frame c full) (hlast : c'.last = c.last) :
    Footed before frame c' full :=
  ⟨h.ends.move hlast, h.closed, h.token⟩

theorem append (h : Footed before frame c full) (h' : Footed c.last nodes c' full') :
    Footed before (frame ++ nodes) c' (full || full') := by
  refine ⟨h.ends.append h'.ends, h.closed.append h'.closed, fun hor => ?_⟩
  rw [Bool.or_eq_true] at hor
  rw [Node.yieldAll_append, ne_eq, List.append_eq_nil_iff, not_and_or]
  exact hor.imp h.token h'.token

/-- A statement that is open at the cursor is put behind the frame. -/
theorem append_open (h : Footed before frame c full) (hends : Ends c.last nodes c')
    (hopen : Closed [] nodes ∨ nodes.OpenEnd c') (htoken : Node.yieldAll (frame ++ nodes) ≠ []) :
    Footed before (frame ++ nodes) c' true := by
  have hends' := h.ends.append hends
  exact ⟨hends', hends'.closed_append_open h.closed hopen htoken, fun _ => htoken⟩

theorem leaf (hproper : c.Proper) (kind : NodeKind) (hrest : full = true → c.rest ≠ []) :
    Footed c.last [.leaf kind c.next] c.advance full where
  ends := .leaf hproper kind
  closed := ⟨fun _ _ hx => absurd hx (by simp [Node.leaf]), trivial⟩
  token hfull := List.ne_nil_of_mem (c.next_mem_yieldAll hproper.solid (hrest hfull) kind [])

theorem missing (p : Position) (d : Diagnostic) (c : Cursor) :
    Footed c.last [.missing p d] c false :=
  ⟨.missing p d c, closed_single (by simp [Node.missing]), nofun⟩

theorem around (h : Footed before frame c full) {kind : NodeKind} (hkind : kind ≠ .exprStmt)
    (error : Option Diagnostic) (p : Position) :
    Footed before [.around kind error p frame] c full :=
  ⟨h.ends.around h.closed _ _ _, closed_single hkind, by simpa using h.token⟩

end Footed

end Frame

/-! ## Forms that close statements -/

namespace Rule

/-- The rules that may leave a statement open. -/
def leavesOpen : Rule → Bool
  | statement | exprStmt => true
  | _ => false

/-- The rules whose frame has a token. -/
def needsToken : Rule → Bool
  | switchItems => true
  | _ => false

/-- What a rule does to the statements of a frame. A statement begins a frame, and
the branches of a switch stand behind a token. -/
structure Closes (r : Rule) (frame : Frame) (c : Cursor) (frame' : Frame) (c' : Cursor) :
    Prop where
  reads : r.Reads frame c frame' c'
  closes : ∀ before, c.Proper → r.isOrdinary = true → (r = .member ∨ r.leavesOpen = true → frame = []) →
    (r.needsToken = true → Node.yieldAll frame ≠ []) → frame.Ends before c → Frame.Closed [] frame →
    frame'.Ends before c' ∧
      (Frame.Closed [] frame' ∨ (r.leavesOpen = true ∧ frame'.OpenEnd c'))

end Rule

theorem Cursor.rest_ne_nil_of_known {c : Cursor} {known : Option (List TokenKind)}
    (hknown : ∀ kinds ∈ known, kindAt c.rest 0 ∈ kinds)
    (hsure : (known.map fun kinds => !kinds.contains .eof).getD false = true) : c.rest ≠ [] := by
  cases known with
  | none => cases hsure
  | some kinds =>
      intro hrest
      have hmem := hknown kinds rfl
      rw [hrest] at hmem
      simp [show TokenKind.eof ∈ kinds from hmem] at hsure

theorem Look.kindAt_mem_or {look : Look} {nodes : List Node} {tokens : List Token}
    (hlook : look.holds nodes tokens = true) {known : Option (List TokenKind)}
    (hknown : ∀ kinds ∈ known, kindAt tokens 0 ∈ kinds) :
    ∀ kinds ∈ look.kinds <|> known, kindAt tokens 0 ∈ kinds := by
  cases hkinds : look.kinds with
  | none => exact hknown
  | some ks =>
      rintro _ ⟨⟩
      exact Look.kindAt_mem hlook ks hkinds

namespace Form

/-- The form is a statement. -/
def isStatement : Form → Bool
  | rule r => r.leavesOpen
  | _ => false

/-- Whether there is a token in the frame behind a form, where `known` is known of
the next token and `full` tells whether there is one now. Fails where a statement
might be left open. -/
def footing : Form → Option (List TokenKind) → Bool → Option Bool
  | done, _, full | missing _, _, full | splitAngle, _, full => some full
  | discard _, _, _ => none
  | take _, known, full =>
    some (full || (known.map fun kinds => !kinds.contains .eof).getD false)
  | seq first second, known, full => (first.footing known full).bind (second.footing none)
  | choose look yes no, known, full =>
    (yes.footing (look.kinds <|> known) full).bind fun a =>
      (no.footing known full).map fun b => a && b
  | enclose label body, known, full =>
    if label.kind = .exprStmt then none else body.footing known full
  | within body, known, full =>
    if body.isStatement then if full then some true else none
    else (body.footing known false).map fun inner => full || inner
  | orElse first second, _, full =>
    if first.isStatement then (second.footing none full).map fun other => full && other else none
  | ifStuck first second, known, full =>
    (first.footing known full).bind fun a => (second.footing none a).map fun b => a && b
  | rule r, _, full =>
    if r.leavesOpen || !r.isOrdinary || (r.needsToken && !full) then none
    else some (full && r.isSteady)

variable {f : Form} {frame frame' : Frame} {c c' : Cursor}

theorem Does.onward_of_closes (h : f.Does Rule.Closes frame c frame' c') : Cursor.Onward c c' :=
  h.onward fun _ _ _ _ _ h => h.reads.onward

/-- A form that is a statement, in an empty frame. -/
theorem Does.closes_statement (h : f.Does Rule.Closes [] c frame' c') (hf : f.isStatement = true)
    (hproper : c.Proper) :
    frame'.Ends c.last c' ∧ (Frame.Closed [] frame' ∨ frame'.OpenEnd c') ∧
      (c'.taken ≠ c.taken → Node.yieldAll frame' ≠ []) := by
  cases f with
  | rule r =>
      have hr : r.leavesOpen = true := hf
      have hneeds : r.needsToken = true → Node.yieldAll ([] : Frame) ≠ [] := by
        cases r with
        | switchItems => cases hr
        | _ => nofun
      have hordinary : r.isOrdinary = true := by
        cases r with
        | statement | exprStmt => rfl
        | _ => cases hr
      obtain ⟨hends, hclosed⟩ := Rule.Closes.closes h c.last hproper hordinary (fun _ => rfl) hneeds
        (.nil c) trivial
      refine ⟨hends, hclosed.imp_right And.right, fun htaken => ?_⟩
      have hleading : r.isLeading = true := by
        cases r <;> first | rfl | cases hr
      obtain ⟨v, hv, _⟩ :=
        (Rule.Reads.retains (Rule.Closes.reads h)).leading hleading hproper.solid htaken
      exact List.ne_nil_of_mem hv
  | _ => cases hf

/-- What is behind a form in a frame whose statements are closed is closed, too. -/
theorem Does.closes (h : f.Does Rule.Closes frame c frame' c') {known : Option (List TokenKind)}
    {empty full full' : Bool} {before : Option Position} (hkeeps : f.keepsAll empty = true)
    (hempty : empty = true → frame = []) (hf : f.footing known full = some full')
    (hproper : c.Proper) (hknown : ∀ kinds ∈ known, kindAt c.rest 0 ∈ kinds)
    (hframe : frame.Footed before c full) : frame'.Footed before c' full' := by
  induction f generalizing frame c frame' c' known empty full full' before with
  | done =>
      obtain ⟨rfl, rfl⟩ := h
      cases hf
      exact hframe
  | take kind =>
      obtain ⟨rfl, rfl⟩ := h
      cases hf
      exact hframe.append (.leaf hproper kind (Cursor.rest_ne_nil_of_known hknown))
  | missing problem =>
      obtain ⟨rfl, rfl⟩ := h
      cases hf
      exact (hframe.append (.missing _ _ _)).weaken (by simp)
  | splitAngle =>
      obtain ⟨rfl, rfl⟩ := h
      cases hf
      exact hframe.move ((Cursor.onward_splitAngle c).place (Cursor.splitAngle_taken c)).2
  | discard => cases hf
  | seq first second ihfirst ihsecond =>
      simp only [keepsAll, Bool.and_eq_true] at hkeeps
      obtain ⟨middle, between, hfirst, hsecond⟩ := h
      obtain ⟨full₁, hf₁, hf₂⟩ := Option.bind_eq_some_iff.mp hf
      have hmiddle := ihfirst hfirst hkeeps.1 hempty hf₁ hproper hknown hframe
      exact ihsecond hsecond hkeeps.2 (by simp) hf₂ (hfirst.onward_of_closes.proper hproper)
        (by rintro _ ⟨⟩) hmiddle
  | choose look yes no ihyes ihno =>
      simp only [keepsAll, Bool.and_eq_true] at hkeeps
      obtain ⟨a, ha, hf⟩ := Option.bind_eq_some_iff.mp hf
      obtain ⟨b, hb, rfl⟩ := Option.map_eq_some_iff.mp hf
      rcases h with ⟨hlook, h⟩ | ⟨_, h⟩
      · have hknown' := Look.kindAt_mem_or hlook hknown
        exact (ihyes h hkeeps.1 hempty ha hproper hknown' hframe).weaken (by simp +contextual)
      · exact (ihno h hkeeps.2 hempty hb hproper hknown hframe).weaken (by simp +contextual)
  | enclose label body ih =>
      obtain ⟨children, hbody, rfl⟩ := h
      simp only [footing] at hf
      split at hf
      next => cases hf
      next hkind => exact (ih hbody hkeeps hempty hf hproper hknown hframe).around hkind _ _
  | within body ih =>
      obtain ⟨nodes, hbody, rfl⟩ := h
      simp only [footing] at hf
      split at hf
      next hstatement =>
          split at hf
          next htrue =>
              cases hf
              obtain ⟨hnodes, hopen, _⟩ := hbody.closes_statement hstatement hproper
              exact hframe.append_open hnodes hopen (by simp [hframe.token htrue])
          next => cases hf
      next =>
          obtain ⟨inner, hinner, rfl⟩ := Option.map_eq_some_iff.mp hf
          exact hframe.append (ih hbody hkeeps (fun _ => rfl) hinner hproper hknown (.nil c))
  | orElse first second ihfirst ihsecond =>
      simp only [keepsAll, Bool.and_eq_true] at hkeeps
      simp only [footing] at hf
      split at hf
      next hstatement =>
          obtain ⟨other, hother, rfl⟩ := Option.map_eq_some_iff.mp hf
          obtain ⟨nodes, between, hfirst, h⟩ := h
          rcases h with ⟨htaken, hsecond⟩ | ⟨htaken, rfl, rfl⟩
          · have honward := hfirst.onward_of_closes
            exact (ihsecond hsecond hkeeps.2 hempty hother (honward.proper hproper)
              (by rintro _ ⟨⟩) (hframe.move (honward.place htaken).2)).weaken (by simp +contextual)
          · obtain ⟨hnodes, hopen, hmoved⟩ := hfirst.closes_statement hstatement hproper
            exact (hframe.append_open hnodes hopen (by simp [hmoved htaken])).weaken fun _ => rfl
      next => cases hf
  | ifStuck first second ihfirst ihsecond =>
      simp only [keepsAll, Bool.and_eq_true] at hkeeps
      obtain ⟨middle, between, hfirst, h⟩ := h
      obtain ⟨a, ha, hf⟩ := Option.bind_eq_some_iff.mp hf
      obtain ⟨b, hb, rfl⟩ := Option.map_eq_some_iff.mp hf
      have hmiddle := ihfirst hfirst hkeeps.1 hempty ha hproper hknown hframe
      rcases h with ⟨_, hsecond⟩ | ⟨_, rfl, rfl⟩
      · exact (ihsecond hsecond hkeeps.2 (by simp) hb (hfirst.onward_of_closes.proper hproper)
          (by rintro _ ⟨⟩) hmiddle).weaken (by simp +contextual)
      · exact hmiddle.weaken (by simp +contextual)
  | rule r =>
      simp only [footing] at hf
      split at hf
      next => cases hf
      next hno =>
          cases hf
          simp only [Bool.or_eq_true, Bool.and_eq_true, Bool.not_eq_true', not_or, not_and] at hno
          obtain ⟨⟨hopen, hordinary⟩, htoken⟩ := hno
          have hstart : r = .member ∨ r.leavesOpen = true → frame = [] := by
            rintro (rfl | hleaves)
            · exact hempty hkeeps
            · exact absurd hleaves hopen
          obtain ⟨hends', hclosed'⟩ := Rule.Closes.closes h before hproper
            (by simpa using hordinary) hstart
            (fun hneeds => hframe.token (by simpa using htoken hneeds)) hframe.ends hframe.closed
          refine ⟨hends', hclosed'.resolve_right fun h => hopen h.1, fun hsteady => ?_⟩
          rw [Bool.and_eq_true] at hsteady
          obtain ⟨v, hv⟩ := List.exists_mem_of_ne_nil _ (hframe.token hsteady.1)
          have hsubset := (Rule.Reads.retains (Rule.Closes.reads h)).steady hsteady.2
          exact List.ne_nil_of_mem (hsubset hv)

/-- The form leaves a statement open at its end only. -/
def opensLast : Form → Option (List TokenKind) → Bool
  | choose look yes no, known => yes.opensLast (look.kinds <|> known) && no.opensLast known
  | rule .exprStmt, _ => true
  | f, known => f.keepsAll false && (f.footing known false).isSome

theorem Does.closes_last (h : f.Does Rule.Closes [] c frame' c') {known : Option (List TokenKind)}
    {before : Option Position} (hf : f.opensLast known = true) (hproper : c.Proper)
    (hknown : ∀ kinds ∈ known, kindAt c.rest 0 ∈ kinds) (hends : Frame.Ends before [] c) :
    frame'.Ends before c' ∧ (Frame.Closed [] frame' ∨ frame'.OpenEnd c') := by
  have hother : ∀ {f : Form}, f.Does Rule.Closes [] c frame' c' → ∀ {known},
      (∀ kinds ∈ known, kindAt c.rest 0 ∈ kinds) →
      (f.keepsAll false && (f.footing known false).isSome) = true →
      frame'.Ends before c' ∧ (Frame.Closed [] frame' ∨ frame'.OpenEnd c') := by
    intro f h known hknown hf
    rw [Bool.and_eq_true] at hf
    obtain ⟨full, hfull⟩ := Option.isSome_iff_exists.mp hf.2
    have hframe' := h.closes hf.1 nofun hfull hproper hknown ⟨hends, trivial, nofun⟩
    exact ⟨hframe'.ends, .inl hframe'.closed⟩
  induction f generalizing known with
  | choose look yes no ihyes ihno =>
      simp only [opensLast, Bool.and_eq_true] at hf
      rcases h with ⟨hlook, h⟩ | ⟨_, h⟩
      · exact ihyes h hf.1 (Look.kindAt_mem_or hlook hknown)
      · exact ihno h hf.2 hknown
  | rule r =>
      cases r with
      | exprStmt =>
          obtain ⟨hends', hclosed'⟩ :=
            Rule.Closes.closes h before hproper rfl (fun _ => rfl) nofun hends trivial
          exact ⟨hends', hclosed'.imp_right And.right⟩
      | _ => exact hother h hknown hf
  | _ => exact hother h hknown hf

end Form

/-! ## Rules -/

namespace Grammar

theorem footing_binaryOperators (least : Nat) (levels : List (Nat × List TokenKind)) :
    ((binaryOperators least levels).footing none false).isSome = true := by
  induction levels with
  | nil => rfl
  | cons level levels ih =>
      unfold binaryOperators
      split
      next =>
          change (((binaryOperators least levels).footing none false).map _).isSome = true
          rw [Option.isSome_map]
          exact ih
      next => exact ih

end Grammar

namespace Rule

open Form Grammar

theorem footing_form (r : Rule) (hordinary : r.isOrdinary = true) (h : r.leavesOpen = false)
    (hr : r ≠ .member) : (r.form.footing none r.needsToken).isSome = true := by
  cases r with
  | operators least =>
      change (((binaryOperators least binaryLevels).footing none false).map _).isSome = true
      rw [Option.isSome_map]
      exact footing_binaryOperators least binaryLevels
  | typeArguments kind | switch kind =>
      have hkind : kind ≠ .exprStmt := by
        rintro rfl
        cases hordinary
      simp only [form, node, footing, Label.kind, hkind, if_false]
      rfl
  | nested n => cases n <;> rfl
  | classBody b | localVarDecl b | nameRest b => cases b <;> rfl
  | list close item => cases item <;> rfl
  | statement | exprStmt => cases h
  | member => exact absurd rfl hr
  | _ => rfl

theorem footing_member : member.form.keeping.footing none false = some false := rfl

theorem opensLast_statement : statement.form.opensLast none = true := rfl

variable {r : Rule} {frame frame' : Frame} {c c' : Cursor} {before : Option Position}

/-- The statement ends where the cursor stands. -/
theorem exprStmt_closes (h : exprStmt.form.Does Closes [] c frame' c') (hproper : c.Proper)
    (hends : Frame.Ends before [] c) : frame'.Ends before c' ∧ frame'.OpenEnd c' := by
  obtain ⟨_, ⟨_, between, ⟨nodes, hbody, rfl⟩, hsign⟩, rfl⟩ := h
  obtain ⟨hnodes, hclosed⟩ :=
    Closes.closes hbody c.last hproper rfl (fun _ => rfl) (by simp [needsToken]) (.nil c) trivial
  replace hclosed := hclosed.resolve_right (by simp [leavesOpen])
  have hfront := hends.append hnodes
  rcases hsign with ⟨_, rfl, rfl⟩ | ⟨_, rfl, rfl⟩
  · have hproper' := (Reads.onward (Closes.reads hbody)).proper hproper
    refine ⟨(hfront.append (.leaf hproper' .token)).around ?_ _ _ _, _, rfl, ?_⟩
    · exact Frame.Closed.append hclosed (Frame.closed_single (by simp [Node.leaf]))
    · intro x hx hnone
      simp only [Node.around, List.getLast?_append, List.getLast?_singleton, Option.some_or,
        Option.mem_def, Option.some.injEq] at hx
      subst hx
      cases hnone
  · refine ⟨(hfront.append (.missing _ _ _)).around ?_ _ _ _, _, rfl, ?_⟩
    · exact Frame.Closed.append hclosed (Frame.closed_single (by simp [Node.missing]))
    · intro x hx _
      simp only [Node.around, List.getLast?_append, List.getLast?_singleton, Option.some_or,
        Option.mem_def, Option.some.injEq] at hx
      subst hx
      rfl

theorem DropsParameters.closes (h : DropsParameters Closes c frame' c') (hproper : c.Proper)
    (hends : Frame.Ends before [] c) : frame'.Ends before c' ∧ Frame.Closed [] frame' := by
  have hlower {r : Rule} {c nodes c'} (h : Closes r [] c nodes c') (hproper : c.Proper)
      (hr : r.isOrdinary = true) (hopen : r.leavesOpen = false) (hneeds : r.needsToken = false) :
      nodes.Ends c.last c' ∧ Frame.Closed [] nodes := by
    obtain ⟨hnodes, hclosed⟩ :=
      h.closes c.last hproper hr (fun _ => rfl) (by simp [hneeds]) (.nil c) trivial
    exact ⟨hnodes, hclosed.resolve_right fun h => by simp [hopen] at h⟩
  have hbefore : before = c.last := hends.last.symm
  subst hbefore
  cases h with
  | @constructor front list between middle hfront hlist _ _ hname hrest =>
      have hproper₁ := hfront.reads.onward.proper hproper
      have hproper₂ := hlist.reads.onward.proper hproper₁
      obtain ⟨hfront', hclosed⟩ := hlower hfront hproper rfl rfl rfl
      obtain ⟨_, ⟨_, _, ⟨rfl, rfl⟩, body, hbody, rfl⟩, rfl⟩ := hrest
      obtain ⟨hbody', hclosed'⟩ :=
        hlower hbody ((Cursor.onward_advance middle).proper hproper₂) rfl rfl rfl
      -- the name is a token, so the tokens in front of it do not matter
      have hrest : middle.rest ≠ [] := by
        intro hrest
        rw [hrest] at hname
        cases hname
      have hnamed := hfront'.append_of_ne_nil (.leaf hproper₂ .identifier)
        (List.ne_nil_of_mem (middle.next_mem_yieldAll hproper₂.solid hrest .identifier []))
      have hkind : NodeKind.constructorDecl ≠ .exprStmt := by decide
      refine ⟨(hnamed.append hbody').around ?_ _ _ _, Frame.closed_single hkind⟩
      have hname' : NodeKind.identifier ≠ .exprStmt := by decide
      exact (hclosed.append (Frame.closed_single hname')).append hclosed'
  | @field front nodes list between middle behind hfront hlist _ _ hlook htype hvariables =>
      have hproper₁ := hfront.reads.onward.proper hproper
      have hproper₂ := hlist.reads.onward.proper hproper₁
      have hproper₃ := htype.reads.onward.proper hproper₂
      obtain ⟨hfront', hclosed⟩ := hlower hfront hproper rfl rfl rfl
      obtain ⟨htype', hclosed'⟩ := hlower htype hproper₂ rfl rfl rfl
      obtain ⟨hrest, hstart⟩ := Cursor.next_mem hlook (by decide : .eof ∉ memberType)
      have hmoved := (Reads.moves _ _ _ _ _ htype.reads).2 hproper₂.solid hrest (.inr hstart)
      obtain ⟨v, hv, _⟩ :=
        (Reads.retains htype.reads).leading rfl hproper₂.solid (Nat.ne_of_gt hmoved)
      have htyped := hfront'.append_of_ne_nil htype' (List.ne_nil_of_mem hv)
      obtain ⟨full, hfooting⟩ : ∃ full, (node .fieldDecl
          (.rule .variables ++ expect .semicolon)).footing none false = some full := ⟨_, rfl⟩
      have hframe' := @Does.closes _ _ _ _ _ hvariables none false false full c.last
        rfl nofun hfooting hproper₃ (by rintro _ ⟨⟩) ⟨htyped, hclosed.append hclosed', nofun⟩
      exact ⟨hframe'.ends, hframe'.closed⟩

theorem Reads.closes (h : r.Reads frame c frame' c') : r.Closes frame c frame' c' := by
  refine h.induct Closes ?_
  intro r frame c frame' c' hform
  refine ⟨.intro (hform.mono fun _ _ _ _ _ h => h.reads), ?_⟩
  intro before hproper hordinary hempty htoken hends hclosed
  cases hopen : r.leavesOpen with
  | true =>
      obtain rfl := hempty (.inr hopen)
      cases r with
      | exprStmt =>
          obtain ⟨hends', hopen'⟩ := exprStmt_closes hform hproper hends
          exact ⟨hends', .inr ⟨rfl, hopen'⟩⟩
      | statement =>
          obtain ⟨hends', hopen'⟩ :=
            hform.closes_last opensLast_statement hproper (by rintro _ ⟨⟩) hends
          exact ⟨hends', hopen'.imp_right fun h => ⟨rfl, h⟩⟩
      | _ => cases hopen
  | false =>
      by_cases hmember : r = .member
      · subst hmember
        obtain rfl := hempty (.inl rfl)
        rcases member_cases (fun _ _ _ _ _ h => h.reads) hproper.solid hform with hkeeping | hdrops
        · have hframe' := hkeeping.closes keepsAll_member (fun _ => rfl) footing_member hproper
            (by rintro _ ⟨⟩) ⟨hends, hclosed, nofun⟩
          exact ⟨hframe'.ends, .inl hframe'.closed⟩
        · obtain ⟨hends', hclosed'⟩ := hdrops.closes hproper hends
          exact ⟨hends', .inl hclosed'⟩
      · obtain ⟨full, hfull⟩ :=
          Option.isSome_iff_exists.mp (footing_form r hordinary hopen hmember)
        have hframe' := hform.closes (keepsAll_form r (isSteady_of_ne hmember)) nofun hfull hproper
          (by rintro _ ⟨⟩) ⟨hends, hclosed, htoken⟩
        exact ⟨hframe'.ends, .inl hframe'.closed⟩

end Rule

end DotCompletion
