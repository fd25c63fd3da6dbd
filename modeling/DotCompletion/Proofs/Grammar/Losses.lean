import DotCompletion.Proofs.Grammar.Layout
import DotCompletion.Proofs.Grammar.Openings
import DotCompletion.Proofs.Grammar.Retention
import DotCompletion.Proofs.Grammar.WholeInput

/-!
# Which tokens are lost

A token that is taken becomes a leaf, and leaves are dropped in one place: type
parameters in front of a field, or of a constructor without parameters, are read
and forgotten. So a tree is what is left of a full one, which has all the tokens,
if such type parameters are taken away. Signs that were cut count as their pieces.
-/

namespace DotCompletion

/-! ## Tokens that are used up -/

namespace Token

/-- A row of tokens in which signs were cut, a single `>` at a time. -/
inductive Cut (row : List Token) : List Token → Prop
  | whole : Cut row row
  | cut {front back : List Token} {t : Token} (h : Cut row (front ++ t :: back))
      (hcut : Cursor.splittable.contains t.kind = true) :
      Cut row (front ++ Cursor.angleOf t :: Cursor.behindAngle t :: back)

namespace Cut

variable {row row' row'' : List Token}

theorem trans (h : Cut row row') (h' : Cut row' row'') : Cut row row'' := by
  induction h' with
  | whole => exact h
  | cut _ hcut ih => exact ih.cut hcut

theorem append_left (front : List Token) (h : Cut row row') :
    Cut (front ++ row) (front ++ row') := by
  induction h with
  | whole => exact .whole
  | cut _ hcut ih =>
      rw [← List.append_assoc] at ih ⊢
      exact ih.cut hcut

/-- Cutting keeps the text. -/
theorem literals (h : Cut row row') (hsolid : ∀ t ∈ row, t.Solid) :
    (∀ t ∈ row', t.Solid) ∧ row'.flatMap Token.literal = row.flatMap Token.literal := by
  induction h with
  | whole => exact ⟨hsolid, rfl⟩
  | @cut front back t _ hcut ih =>
      obtain ⟨hall, htext⟩ := ih
      have ht : t.Solid := hall t (by simp)
      refine ⟨fun u hu => ?_, ?_⟩
      · simp only [List.mem_append, List.mem_cons] at hu
        rcases hu with hu | rfl | rfl | hu
        · exact hall u (by simp [hu])
        · exact Cursor.angleOf_solid t
        · exact Cursor.behindAngle_solid hcut ht
        · exact hall u (by simp [hu])
      · rw [← htext]
        simp only [List.flatMap_append, List.flatMap_cons, Cursor.literal_eq_cons hcut ht]
        rfl

end Cut

/-- A token that is left out takes text away. -/
theorem eq_or_shorter_of_sublist {row row' : List Token} (h : row.Sublist row')
    (hsolid : ∀ t ∈ row', t.Solid) :
    row = row' ∨ (row.flatMap literal).length < (row'.flatMap literal).length := by
  induction h with
  | slnil => exact .inl rfl
  | cons t _ ih =>
      have hpos := List.length_pos_iff.mpr (hsolid t List.mem_cons_self).text
      rw [List.flatMap_cons, List.length_append]
      rcases ih fun u hu => hsolid u (List.mem_cons_of_mem _ hu) with rfl | hlt <;>
        exact .inr (by omega)
  | cons_cons t _ ih =>
      rw [List.flatMap_cons, List.flatMap_cons, List.length_append, List.length_append]
      exact (ih fun u hu => hsolid u (List.mem_cons_of_mem _ hu)).imp (congrArg (t :: ·))
        (Nat.add_lt_add_left · _)

end Token

namespace Cursor

/-- Between two cursors the tokens `used` are taken, pieces of signs among
them. -/
def Uses (c : Cursor) (used : List Token) (c' : Cursor) : Prop :=
  Token.Cut c.rest (used ++ c'.rest)

namespace Uses

variable {c c₁ c₂ : Cursor} {used used' : List Token}

theorem refl (c : Cursor) : c.Uses [] c := .whole

theorem trans (h : c.Uses used c₁) (h' : c₁.Uses used' c₂) : c.Uses (used ++ used') c₂ := by
  rw [Uses, List.append_assoc]
  exact Token.Cut.trans h (Token.Cut.append_left used h')

/-- Taking a token uses the one that its leaf shows. -/
theorem advance (hproper : c.Proper) (kind : NodeKind) :
    c.Uses (Node.leaf kind c.next).yield c.advance := by
  cases hrest : c.rest with
  | nil =>
      have heof : c.next.kind = .eof := by
        rw [next, hrest]
        exact hproper.eof
      have hsame : c.advance = c := by rw [Cursor.advance, hrest]
      rw [Node.yield_leaf_eof kind heof, hsame]
      exact .refl c
  | cons t rest =>
      have hne : c.rest ≠ [] := by rw [hrest]; exact List.cons_ne_nil t rest
      rw [Node.yield_leaf kind (hproper.solid.next hne).kind]
      have hnext : c.next = t := by rw [next, hrest]; rfl
      rw [Uses, Cursor.advance, hnext, hrest]
      exact .whole

theorem splitAngle (c : Cursor) : c.Uses [] c.splitAngle := by
  unfold Uses Cursor.splitAngle
  split
  next => exact .whole
  next t rest hrest =>
      split
      next hcut =>
          rw [hrest]
          exact @Token.Cut.cut _ [] rest t .whole hcut
      next => exact .whole

/-- Without a token taken none is used. -/
theorem eq_nil (h : c.Uses used c₁) (hsolid : c.Solid) (honward : Onward c c₁)
    (htaken : c₁.taken = c.taken) : used = [] := by
  have hleft := honward.stayed_left hsolid htaken
  obtain ⟨hall, htext⟩ := Token.Cut.literals h hsolid
  have hlength := congrArg List.length htext
  simp only [List.flatMap_append, List.length_append, List.length_flatMap] at hlength
  have hzero : (used.map fun t => t.literal.length).sum = 0 := by
    simp only [left] at hleft
    omega
  cases used with
  | nil => rfl
  | cons t used =>
      have hpos := List.length_pos_iff.mpr (hall t (by simp)).text
      simp only [List.map_cons, List.sum_cons] at hzero
      omega

end Uses

end Cursor

/-! ## Trees without some type parameters -/

namespace NodeKind

/-- Type parameters in front of a node of this kind may be dropped. -/
def mayDrop : List NodeKind := [.fieldDecl, .constructorDecl]

end NodeKind

/-- The second row of trees is the first one, but that fields and constructors
may have lost their type parameters. -/
inductive Frame.Lacks : Frame → Frame → Prop
  | nil : Lacks [] []
  | same (n : Node) {full frame : Frame} (h : Lacks full frame) : Lacks (n :: full) (n :: frame)
  | around (kind : NodeKind) (error : Option Diagnostic) (p : Position)
      {inner children full frame : Frame} (hinner : Lacks inner children) (h : Lacks full frame) :
      Lacks (.around kind error p inner :: full) (.around kind error p children :: frame)
  | drop {kind : NodeKind} (hkind : kind ∈ NodeKind.mayDrop) (error : Option Diagnostic)
      (p : Position) {list : Node} (hlist : list.kind = .typeParameters)
      (hyield : list.yield ≠ []) {front front' back back' full frame : Frame}
      (hfront : Lacks front front') (hback : Lacks back back') (h : Lacks full frame) :
      Lacks (.around kind error p (front ++ list :: back) :: full)
        (.around kind error p (front' ++ back') :: frame)

/-- The second tree is the first one, but that fields and constructors may have
lost their type parameters. -/
def Node.Lacks (full n : Node) : Prop := Frame.Lacks [full] [n]

namespace Frame.Lacks

variable {full frame full' frame' : Frame}

theorem append (h : Lacks full frame) (h' : Lacks full' frame') :
    Lacks (full ++ full') (frame ++ frame') := by
  induction h with
  | nil => exact h'
  | same n _ ih => exact .same n ih
  | around kind error p hinner _ _ ih => exact .around kind error p hinner ih
  | drop hkind error p hlist hyield hfront hback _ _ _ ih =>
      exact .drop hkind error p hlist hyield hfront hback ih

theorem single (n : Node) : Lacks [n] [n] := .same n .nil

/-- The tokens that are left stand in the same order. -/
theorem yield_sublist (h : Lacks full frame) :
    (Node.yieldAll frame).Sublist (Node.yieldAll full) := by
  induction h with
  | nil => exact .slnil
  | same n _ ih => exact (List.Sublist.refl _).append ih
  | around kind error p _ _ ihinner ih => exact ihinner.append ih
  | drop hkind error p _ _ _ _ _ ihfront ihback ih =>
      refine List.Sublist.append ?_ ih
      rw [Node.yield_around, Node.yield_around, Node.yieldAll_append, Node.yieldAll_append,
        Node.yieldAll_cons]
      exact ihfront.append (ihback.trans (List.sublist_append_right _ _))

/-- A row that has lost no token has lost nothing. -/
theorem eq_of_length_eq (h : Lacks full frame)
    (hlength : (Node.yieldAll frame).length = (Node.yieldAll full).length) : full = frame := by
  induction h with
  | nil => rfl
  | same n _ ih =>
      simp only [Node.yieldAll_cons, List.length_append, Nat.add_left_cancel_iff] at hlength
      rw [ih hlength]
  | around kind error p hinner h ihinner ih =>
      have hle := hinner.yield_sublist.length_le
      have hle' := h.yield_sublist.length_le
      simp only [Node.yieldAll_cons, Node.yield_around, List.length_append] at hlength
      rw [ihinner (by omega), ih (by omega)]
  | drop hkind error p hlist hyield hfront hback h =>
      have hle := hfront.yield_sublist.length_le
      have hle' := hback.yield_sublist.length_le
      have hle'' := h.yield_sublist.length_le
      have hpos := List.length_pos_iff.mpr hyield
      simp only [Node.yieldAll_cons, Node.yield_around, Node.yieldAll_append,
        List.length_append] at hlength
      omega

/-- Without fields and constructors nothing is lost. -/
theorem eq_of_none (h : Lacks full frame)
    (hnone : ∀ n ∈ frame, n.Every fun n => n.kind ∉ NodeKind.mayDrop) : full = frame := by
  induction h with
  | nil => rfl
  | same n _ ih => rw [ih fun m hm => hnone m (List.mem_cons_of_mem _ hm)]
  | around kind error p _ _ ihinner ih =>
      rw [ihinner fun m hm => (hnone _ List.mem_cons_self).child hm,
        ih fun m hm => hnone m (List.mem_cons_of_mem _ hm)]
  | drop hkind => exact absurd hkind (hnone _ List.mem_cons_self).own

theorem eq_nil (h : Lacks full []) : full = [] := by
  cases h
  rfl

/-- A single tree lacks something of a single tree of its kind. -/
theorem eq_singleton {n : Node} (h : Lacks full [n]) :
    ∃ m, full = [m] ∧ m.kind = n.kind ∧ n.yield.Sublist m.yield := by
  have hsublist := h.yield_sublist
  have hm : ∃ m, full = [m] ∧ m.kind = n.kind := by
    cases h with
    | same n h | around kind error p hinner h => exact ⟨_, congrArg (_ :: ·) h.eq_nil, rfl⟩
    | drop hkind error p hlist hyield hfront hback h =>
        exact ⟨_, congrArg (_ :: ·) h.eq_nil, rfl⟩
  obtain ⟨m, rfl, hkind⟩ := hm
  refine ⟨m, rfl, hkind, ?_⟩
  simpa using hsublist

end Frame.Lacks

/-- A tree whose tokens spell all of the text has lost nothing. -/
theorem Node.Lacks.eq_of_spelling_eq {full n : Node} (h : full.Lacks n)
    (hsolid : ∀ t ∈ full.yield, t.Solid)
    (htext : n.yield.flatMap Token.literal = full.yield.flatMap Token.literal) : full = n := by
  have hsublist : n.yield.Sublist full.yield := by simpa using Frame.Lacks.yield_sublist h
  rcases Token.eq_or_shorter_of_sublist hsublist hsolid with hyield | hshorter
  · exact List.singleton_inj.mp (Frame.Lacks.eq_of_length_eq h (by simp [hyield]))
  · rw [htext] at hshorter
    exact absurd hshorter (Nat.lt_irrefl _)

/-- A frame whose tokens are those of `full` and those used between two cursors,
but for type parameters that were dropped. -/
def Frame.Filled (full : Frame) (c : Cursor) (frame' : Frame) (c' : Cursor) : Prop :=
  ∃ full' used, Frame.Lacks full' frame' ∧
    Node.yieldAll full' = Node.yieldAll full ++ used ∧ c.Uses used c'

namespace Frame.Filled

variable {full frame nodes : Frame} {c c' : Cursor}

theorem refl (h : Lacks full frame) (c : Cursor) : Filled full c frame c :=
  ⟨full, [], h, (List.append_nil _).symm, .refl c⟩

/-- Nodes are put behind a frame. -/
theorem append (h : Lacks full frame) (h' : Filled [] c nodes c') :
    Filled full c (frame ++ nodes) c' := by
  obtain ⟨full', used, hlacks, hyield, huses⟩ := h'
  refine ⟨full ++ full', used, h.append hlacks, ?_, huses⟩
  rw [Node.yieldAll_append, hyield]
  rfl

theorem trans {middle frame' : Frame} {between : Cursor} (h : Filled full c middle between)
    (h' : ∀ full, Lacks full middle → Filled full between frame' c') : Filled full c frame' c' := by
  obtain ⟨full₁, used₁, hlacks₁, hyield₁, huses₁⟩ := h
  obtain ⟨full₂, used₂, hlacks₂, hyield₂, huses₂⟩ := h' full₁ hlacks₁
  refine ⟨full₂, used₁ ++ used₂, hlacks₂, ?_, huses₁.trans huses₂⟩
  rw [hyield₂, hyield₁, List.append_assoc]

theorem around (kind : NodeKind) (error : Option Diagnostic) (p : Position)
    (h : Filled full c frame c') : Filled full c [.around kind error p frame] c' := by
  obtain ⟨full', used, hlacks, hyield, huses⟩ := h
  exact ⟨[.around kind error p full'], used, .around kind error p hlacks .nil,
    by simpa using hyield, huses⟩

theorem leaf (hproper : c.Proper) (kind : NodeKind) :
    Filled [] c [.leaf kind c.next] c.advance :=
  ⟨_, _, .single _, by simp, .advance hproper kind⟩

theorem missing (p : Position) (d : Diagnostic) (c : Cursor) : Filled [] c [.missing p d] c :=
  ⟨_, [], .single _, rfl, .refl c⟩

/-- Type parameters are used and dropped. -/
theorem drop {kind : NodeKind} (hkind : kind ∈ NodeKind.mayDrop) (error : Option Diagnostic)
    (p : Position) {front back : Frame} {list : Node} {between middle : Cursor}
    (hfront : Filled [] c front between) (hlist : Filled [] between [list] middle)
    (hparameters : list.kind = .typeParameters) (hyield : list.yield ≠ [])
    (hback : Filled [] middle back c') : Filled [] c [.around kind error p (front ++ back)] c' := by
  obtain ⟨front', used₁, hlacks₁, hyield₁, huses₁⟩ := hfront
  obtain ⟨lists, used₂, hlacks₂, hyield₂, huses₂⟩ := hlist
  obtain ⟨back', used₃, hlacks₃, hyield₃, huses₃⟩ := hback
  obtain ⟨list', rfl, hkind', hsublist⟩ := hlacks₂.eq_singleton
  have hne : list'.yield ≠ [] := by
    intro hnil
    rw [hnil, List.sublist_nil] at hsublist
    exact hyield hsublist
  refine ⟨_, used₁ ++ (used₂ ++ used₃), .drop hkind error p (hkind'.trans hparameters) hne
    hlacks₁ hlacks₃ .nil, ?_, huses₁.trans (huses₂.trans huses₃)⟩
  simp only [Node.yieldAll_cons, Node.yieldAll_nil, List.append_nil, List.nil_append]
    at hyield₁ hyield₂ hyield₃
  simp [hyield₁, hyield₂, hyield₃]

end Frame.Filled

/-! ## Members that drop their type parameters -/

namespace Form

/-- The form drops no node, and reads a member of a class only into an empty
frame. -/
def keepsAll (empty : Bool) : Form → Bool
  | discard _ => false
  | seq first second | ifStuck first second => first.keepsAll empty && second.keepsAll false
  | choose _ yes no => yes.keepsAll empty && no.keepsAll empty
  | enclose _ body => body.keepsAll empty
  | within body => body.keepsAll true
  | orElse first second => first.keepsAll true && second.keepsAll empty
  | rule .member => empty
  | _ => true

/-- The same form, but that it drops no node. -/
def keeping : Form → Form
  | discard _ => done
  | seq first second => seq first.keeping second.keeping
  | choose look yes no => choose look yes.keeping no.keeping
  | enclose label body => enclose label body.keeping
  | within body => within body.keeping
  | orElse first second => orElse first.keeping second.keeping
  | ifStuck first second => ifStuck first.keeping second.keeping
  | f => f

end Form

namespace Grammar

open Form

theorem keepsAll_binaryOperators (least : Nat) (levels : List (Nat × List TokenKind)) :
    (binaryOperators least levels).keepsAll false = true := by
  induction levels with
  | nil => rfl
  | cons level levels ih =>
      unfold binaryOperators
      split
      next =>
          change (true && (binaryOperators least levels).keepsAll false) = true
          rw [ih]
          rfl
      next => exact ih

/-- What follows the type parameters of a member. -/
def memberEnd : Form :=
  .choose (nameBefore .lparen) (node .constructorDecl (name ++ .rule .methodRest))
    (.choose (nameBefore .lbrace)
      (.discard .typeParameters ++ node .constructorDecl (name ++ call .block))
    (.choose (.next memberType) typedMember brokenMember))

theorem filter_no_parameters {row : Frame} (h : ∀ n ∈ row, n.kind ≠ .typeParameters) :
    row.filter (fun n => n.kind != .typeParameters) = row :=
  List.filter_eq_self.mpr fun n hn => by simpa using h n hn

theorem filter_parameters {front behind : Frame} {list : Node}
    (hfront : ∀ n ∈ front, n.kind ≠ .typeParameters) (hlist : list.kind = .typeParameters)
    (hbehind : ∀ n ∈ behind, n.kind ≠ .typeParameters) :
    (front ++ [list] ++ behind).filter (fun n => n.kind != .typeParameters) = front ++ behind := by
  rw [List.filter_append, List.filter_append, filter_no_parameters hfront,
    filter_no_parameters hbehind]
  simp [hlist]

end Grammar

namespace Rule

open Form Grammar

/-- Only a member of a class drops nodes. -/
theorem keepsAll_form (r : Rule) (h : r.isSteady = true) : r.form.keepsAll false = true := by
  cases r with
  | operators least =>
      change (true && (binaryOperators least binaryLevels).keepsAll false) = true
      rw [keepsAll_binaryOperators]
      rfl
  | nested n => cases n <;> rfl
  | classBody b | localVarDecl b | nameRest b => cases b <;> rfl
  | list close item => cases item <;> rfl
  | member => cases h
  | _ => rfl

theorem isSteady_of_ne {r : Rule} (h : r ≠ .member) : r.isSteady = true := by
  cases r with
  | member => exact absurd rfl h
  | _ => rfl

theorem keepsAll_member : member.form.keeping.keepsAll true = true := rfl

/-- Modifiers are one node, or none. -/
theorem Reads.modifiers_frame {frame frame' : Frame} {c c' : Cursor}
    (h : modifiers.Reads frame c frame' c') :
    ∃ nodes, frame' = frame ++ nodes ∧ ∀ n ∈ nodes, n.kind = .modifiers := by
  rcases h.elim with ⟨_, _, ⟨children, _, rfl⟩, rfl⟩ | ⟨_, rfl, _⟩
  · exact ⟨_, rfl, fun n hn => by rw [List.mem_singleton.mp hn]; rfl⟩
  · exact ⟨[], (List.append_nil _).symm, fun _ hn => nomatch hn⟩

/-- Type parameters are one node, which begins with the token ahead. -/
theorem Reads.typeParameters_frame {frame' : Frame} {c c' : Cursor}
    (h : typeParameters.Reads [] c frame' c') (hsolid : c.Solid) (hrest : c.rest ≠ []) :
    ∃ list, frame' = [list] ∧ list.kind = .typeParameters ∧ list.yield ≠ [] := by
  obtain ⟨children, ⟨middle, between, ⟨_, _, ⟨rfl, rfl⟩, hmore⟩, hangle⟩, rfl⟩ := h.elim
  have hfirst := c.next_mem_yieldAll hsolid hrest .token []
  have hmiddle := (Reads.retains hmore).steady rfl hfirst
  have hchildren := Does.steady (hangle.mono fun _ _ _ _ _ => Reads.retains) rfl hmiddle
  exact ⟨_, rfl, rfl, List.ne_nil_of_mem (by rw [Node.yield_around]; exact hchildren)⟩

/-- A type is one node. -/
theorem Reads.typeUse_frame {frame' : Frame} {c c' : Cursor} (h : typeUse.Reads [] c frame' c') :
    ∀ n ∈ frame', n.kind ≠ .typeParameters := by
  obtain ⟨children, _, rfl⟩ := h.elim
  intro n hn
  rw [List.mem_singleton.mp hn]
  exact nofun

/-- A member that has dropped its type parameters: a constructor without
parameters, or a field. -/
inductive DropsParameters (goto : Behaviour) (c : Cursor) (frame' : Frame) (c' : Cursor) : Prop
  | constructor {front : Frame} {list : Node} {between middle : Cursor}
      (hfront : goto .modifiers [] c front between)
      (hlist : goto .typeParameters [] between [list] middle)
      (hkind : list.kind = .typeParameters) (hyield : list.yield ≠ [])
      (hname : (nameBefore .lbrace).holds [] middle.rest = true)
      (hrest : (node .constructorDecl (name ++ call .block)).Does goto front middle frame' c')
  | field {front nodes : Frame} {list : Node} {between middle behind : Cursor}
      (hfront : goto .modifiers [] c front between)
      (hlist : goto .typeParameters [] between [list] middle)
      (hkind : list.kind = .typeParameters) (hyield : list.yield ≠ [])
      (hlook : (Look.next memberType).holds [] middle.rest = true)
      (htype : goto .typeUse [] middle nodes behind)
      (hrest : (node .fieldDecl (.rule .variables ++ expect .semicolon)).Does goto
        (front ++ nodes) behind frame' c')

/-- A member is read without dropping a node, or it drops its type parameters. -/
theorem member_cases {goto : Behaviour} {frame' : Frame} {c c' : Cursor}
    (hgoto : ∀ r frame c frame' c', goto r frame c frame' c' → r.Reads frame c frame' c')
    (hsolid : c.Solid) (h : member.form.Does goto [] c frame' c') :
    member.form.keeping.Does goto [] c frame' c' ∨ DropsParameters goto c frame' c' := by
  rcases h with hsemicolon | ⟨hno, front, between, hfront, h⟩
  · exact .inl (.inl hsemicolon)
  rcases h with hblock | ⟨hno', htype | ⟨hno'', frame, middle, hlist, h⟩⟩
  · exact .inl (.inr ⟨hno, front, between, hfront, .inl hblock⟩)
  · exact .inl (.inr ⟨hno, front, between, hfront, .inr ⟨hno', .inl htype⟩⟩)
  have hkeeps (hdoes : memberEnd.keeping.Does goto frame middle frame' c') :
      member.form.keeping.Does goto [] c frame' c' :=
    .inr ⟨hno, front, between, hfront, .inr ⟨hno', .inr ⟨hno'', frame, middle, hlist, hdoes⟩⟩⟩
  have hfront' : ∀ n ∈ front, n.kind ≠ .typeParameters := by
    obtain ⟨nodes, hnodes, hmodifiers⟩ := (hgoto _ _ _ _ _ hfront).modifiers_frame
    rw [hnodes, List.nil_append]
    exact fun n hn hkind => nomatch (hmodifiers n hn).symm.trans hkind
  rcases hlist with ⟨hless, lists, hlist, rfl⟩ | ⟨_, rfl, rfl⟩
  · -- type parameters stand in the frame
    have hrest : between.rest ≠ [] := by
      intro hrest
      rw [hrest] at hless
      cases hless
    obtain ⟨list, rfl, hkind, hyield⟩ := (hgoto _ _ _ _ _ hlist).typeParameters_frame
      ((hgoto _ _ _ _ _ hfront).onward.solid hsolid) hrest
    rcases h with hmethod | ⟨hnot, ⟨hname, _, _, ⟨rfl, rfl⟩, hcompact⟩ |
      ⟨hnot', ⟨hlook, _, behind, ⟨types, htype, rfl⟩, hmethod | ⟨hnot'', _, _, ⟨rfl, rfl⟩, hfield⟩⟩ |
        hbroken⟩⟩
    · exact .inl (hkeeps (.inl hmethod))
    · have hfilter := @filter_parameters front [] list hfront' hkind (by simp)
      rw [List.append_nil, List.append_nil] at hfilter
      rw [hfilter] at hcompact
      exact .inr (.constructor hfront hlist hkind hyield hname hcompact)
    · exact .inl (hkeeps (.inr ⟨hnot, .inr ⟨hnot', .inl ⟨hlook, _, behind, ⟨types, htype, rfl⟩,
        .inl hmethod⟩⟩⟩))
    · rw [filter_parameters hfront' hkind (hgoto _ _ _ _ _ htype).typeUse_frame] at hfield
      exact .inr (.field hfront hlist hkind hyield hlook htype hfield)
    · exact .inl (hkeeps (.inr ⟨hnot, .inr ⟨hnot', .inr hbroken⟩⟩))
  · -- there are none to drop
    refine .inl (hkeeps ?_)
    rcases h with hmethod | ⟨hnot, ⟨hname, _, _, ⟨rfl, rfl⟩, hcompact⟩ |
      ⟨hnot', ⟨hlook, _, _, ⟨types, htype, rfl⟩, hmethod | ⟨hnot'', _, _, ⟨rfl, rfl⟩, hfield⟩⟩ |
        hbroken⟩⟩
    · exact .inl hmethod
    · rw [filter_no_parameters hfront'] at hcompact
      exact .inr ⟨hnot, .inl ⟨hname, _, _, ⟨rfl, rfl⟩, hcompact⟩⟩
    · exact .inr ⟨hnot, .inr ⟨hnot', .inl ⟨hlook, _, _, ⟨types, htype, rfl⟩, .inl hmethod⟩⟩⟩
    · rw [List.filter_append, filter_no_parameters hfront',
        filter_no_parameters (hgoto _ _ _ _ _ htype).typeUse_frame] at hfield
      exact .inr ⟨hnot, .inr ⟨hnot', .inl ⟨hlook, _, _, ⟨types, htype, rfl⟩,
        .inr ⟨hnot'', _, _, ⟨rfl, rfl⟩, hfield⟩⟩⟩⟩
    · exact .inr ⟨hnot, .inr ⟨hnot', .inr hbroken⟩⟩

/-! ## Filling frames -/

/-- What a rule uses fills its frame. A member of a class is filled from nothing;
variables stand behind what is there. -/
structure Fills (r : Rule) (frame : Frame) (c : Cursor) (frame' : Frame) (c' : Cursor) :
    Prop where
  reads : r.Reads frame c frame' c'
  fills : (r = .member → frame = []) → c.Proper → ∀ full, Frame.Lacks full frame →
    Frame.Filled full c frame' c'
  appends : r = .variables → c.Proper →
    ∃ nodes, frame' = frame ++ nodes ∧ Frame.Filled [] c nodes c'

end Rule

namespace Form

variable {f : Form} {frame frame' : Frame} {c c' : Cursor}

theorem Does.onward_of_fills (h : f.Does Rule.Fills frame c frame' c') : Cursor.Onward c c' :=
  h.onward fun _ _ _ _ _ h => h.reads.onward

theorem Does.fills (h : f.Does Rule.Fills frame c frame' c') {empty : Bool}
    (hf : f.keepsAll empty = true) (hempty : empty = true → frame = []) (hproper : c.Proper)
    {full : Frame} (hfull : Frame.Lacks full frame) : Frame.Filled full c frame' c' := by
  induction f generalizing frame c frame' c' empty full with
  | done =>
      obtain ⟨rfl, rfl⟩ := h
      exact .refl hfull _
  | take kind =>
      obtain ⟨rfl, rfl⟩ := h
      exact .append hfull (.leaf hproper kind)
  | missing problem =>
      obtain ⟨rfl, rfl⟩ := h
      exact .append hfull (.missing _ _ _)
  | splitAngle =>
      obtain ⟨rfl, rfl⟩ := h
      exact ⟨full, [], hfull, (List.append_nil _).symm, .splitAngle c⟩
  | discard => cases hf
  | seq first second ihfirst ihsecond =>
      simp only [keepsAll, Bool.and_eq_true] at hf
      obtain ⟨middle, between, hfirst, hsecond⟩ := h
      exact (ihfirst hfirst hf.1 hempty hproper hfull).trans fun _ hmiddle =>
        ihsecond hsecond hf.2 nofun (hfirst.onward_of_fills.proper hproper) hmiddle
  | choose look yes no ihyes ihno =>
      simp only [keepsAll, Bool.and_eq_true] at hf
      rcases h with ⟨_, h⟩ | ⟨_, h⟩
      · exact ihyes h hf.1 hempty hproper hfull
      · exact ihno h hf.2 hempty hproper hfull
  | enclose label body ih =>
      obtain ⟨children, hbody, rfl⟩ := h
      exact (ih hbody hf hempty hproper hfull).around _ _ _
  | within body ih =>
      obtain ⟨nodes, hbody, rfl⟩ := h
      exact .append hfull (ih hbody hf (fun _ => rfl) hproper .nil)
  | orElse first second ihfirst ihsecond =>
      simp only [keepsAll, Bool.and_eq_true] at hf
      obtain ⟨nodes, between, hfirst, h⟩ := h
      have hnodes := ihfirst hfirst hf.1 (fun _ => rfl) hproper .nil
      rcases h with ⟨htaken, hsecond⟩ | ⟨_, rfl, rfl⟩
      · -- no token was used, so none is forgotten
        obtain ⟨_, used, _, _, huses⟩ := hnodes
        have honward := hfirst.onward_of_fills
        rw [huses.eq_nil hproper.solid honward htaken] at huses
        obtain ⟨full', used', hlacks, hyield, huses'⟩ :=
          ihsecond hsecond hf.2 hempty (honward.proper hproper) hfull
        exact ⟨full', used', hlacks, hyield, huses.trans huses'⟩
      · exact .append hfull hnodes
  | ifStuck first second ihfirst ihsecond =>
      simp only [keepsAll, Bool.and_eq_true] at hf
      obtain ⟨middle, between, hfirst, h⟩ := h
      have hmiddle := ihfirst hfirst hf.1 hempty hproper hfull
      rcases h with ⟨_, hsecond⟩ | ⟨_, rfl, rfl⟩
      · exact hmiddle.trans fun _ hmiddle =>
          ihsecond hsecond hf.2 nofun (hfirst.onward_of_fills.proper hproper) hmiddle
      · exact hmiddle
  | rule name =>
      refine Rule.Fills.fills h (fun hname => ?_) hproper full hfull
      subst hname
      exact hempty hf

theorem Does.expect_appends {kind : TokenKind} (h : (expect kind).Does Rule.Fills frame c frame' c')
    (hproper : c.Proper) : ∃ nodes, frame' = frame ++ nodes ∧ Frame.Filled [] c nodes c' := by
  rcases h with ⟨_, rfl, rfl⟩ | ⟨_, rfl, rfl⟩
  · exact ⟨_, rfl, .leaf hproper _⟩
  · exact ⟨_, rfl, .missing _ _ _⟩

end Form

namespace Rule

open Form Grammar

variable {r : Rule} {frame frame' : Frame} {c c' : Cursor}

theorem variables_appends (h : variables.form.Does Fills frame c frame' c') (hproper : c.Proper) :
    ∃ nodes, frame' = frame ++ nodes ∧ Frame.Filled [] c nodes c' := by
  obtain ⟨_, between, ⟨first, hfirst, rfl⟩, hmore⟩ := h
  have hfirst' := @Does.fills _ _ _ _ _ hfirst true rfl (fun _ => rfl) hproper _ .nil
  rcases hmore with ⟨_, _, _, ⟨rfl, rfl⟩, hmore⟩ | ⟨_, rfl, rfl⟩
  · have hproper' := hfirst.onward_of_fills.proper hproper
    obtain ⟨more, rfl, hmore'⟩ :=
      hmore.appends rfl ((Cursor.onward_advance between).proper hproper')
    refine ⟨first ++ ([Node.leaf .token between.next] ++ more), by simp, ?_⟩
    exact hfirst'.trans fun _ hfull => .append hfull
      ((Frame.Filled.leaf hproper' .token).trans fun _ hfull => .append hfull hmore')
  · exact ⟨first, rfl, hfirst'⟩

theorem DropsParameters.fills (h : DropsParameters Fills c frame' c') (hproper : c.Proper) :
    Frame.Filled [] c frame' c' := by
  cases h with
  | @constructor front list between middle hfront hlist hkind hyield _ hrest =>
      have hproper₁ := hfront.reads.onward.proper hproper
      have hproper₂ := hlist.reads.onward.proper hproper₁
      obtain ⟨_, ⟨_, _, ⟨rfl, rfl⟩, body, hbody, rfl⟩, rfl⟩ := hrest
      rw [List.append_assoc]
      refine .drop (by decide) _ _ (hfront.fills nofun hproper _ .nil)
        (hlist.fills nofun hproper₁ _ .nil) hkind hyield ?_
      exact (Frame.Filled.leaf hproper₂ .identifier).trans fun _ hfull => .append hfull
        (Fills.fills hbody nofun ((Cursor.onward_advance middle).proper hproper₂) _ .nil)
  | @field front nodes list between middle behind hfront hlist hkind hyield _ htype hrest =>
      have hproper₁ := hfront.reads.onward.proper hproper
      have hproper₂ := hlist.reads.onward.proper hproper₁
      have hproper₃ := htype.reads.onward.proper hproper₂
      obtain ⟨_, ⟨_, _, hvariables, hsemicolon⟩, rfl⟩ := hrest
      obtain ⟨named, rfl, hnamed⟩ := hvariables.appends rfl hproper₃
      obtain ⟨sign, rfl, hsign⟩ :=
        hsemicolon.expect_appends (hvariables.reads.onward.proper hproper₃)
      rw [List.append_assoc, List.append_assoc]
      refine .drop (by decide) _ _ (hfront.fills nofun hproper _ .nil)
        (hlist.fills nofun hproper₁ _ .nil) hkind hyield ?_
      exact (htype.fills nofun hproper₂ _ .nil).trans fun _ hfull => .append hfull
        (hnamed.trans fun _ hfull => .append hfull hsign)

theorem Reads.fills (h : r.Reads frame c frame' c') : r.Fills frame c frame' c' := by
  refine h.induct Fills ?_
  intro r frame c frame' c' hform
  have hreads : r.Reads frame c frame' c' := .intro (hform.mono fun _ _ _ _ _ h => h.reads)
  refine ⟨hreads, fun hempty hproper full hfull => ?_, fun hr hproper => ?_⟩
  · by_cases hmember : r = .member
    · obtain rfl := hempty hmember
      obtain rfl := hfull.eq_nil
      subst hmember
      rcases member_cases (fun _ _ _ _ _ h => h.reads) hproper.solid hform with hkeeping | hdrops
      · exact hkeeping.fills keepsAll_member (fun _ => rfl) hproper .nil
      · exact hdrops.fills hproper
    · exact hform.fills (keepsAll_form r (isSteady_of_ne hmember)) nofun hproper hfull
  · subst hr
    exact variables_appends hform hproper

end Rule

/-! ## The full tree of a source -/

/-- The tree of a source is what is left of a tree with all the tokens in front of
the place where reading ended. -/
theorem Entry.exists_full (entry : Entry) (source : Bytes) :
    ∃ (full : Node) (back : List Token), Token.Cut (Token.significant source) (full.yield ++ back) ∧
      full.Lacks (entry.parse source) ∧ (entry ≠ .expression → back = []) := by
  obtain ⟨frame, c, hread⟩ := entry.read?_isSome source
  obtain ⟨node, rfl⟩ := Entry.read?_eq_singleton hread
  have hreads : entry.rule.Reads [] (Cursor.ofSource source) [node] c := ⟨_, hread⟩
  have hproper : (Cursor.ofSource source).Proper := ⟨Cursor.ofSource_solid source, rfl⟩
  obtain ⟨full', used, hlacks, hyield, huses⟩ :=
    hreads.fills.fills (fun _ => rfl) hproper [] .nil
  obtain ⟨full, rfl, -⟩ := hlacks.eq_singleton
  have hparse : entry.parse source = node := by rw [Entry.parse, hread]
  have hused : full.yield = used := by simpa using hyield
  rw [hparse]
  exact ⟨full, c.rest, hused ▸ huses, hlacks, fun hentry => Entry.rest_eq_nil hentry hread⟩

/-- The end of the input has no text. -/
theorem Node.Every.literal_eq_nil {source : Bytes} {root n : Node}
    (h : root.Every (Node.Laid source)) (hn : n ∈ root.leaves) (hend : n.marksEnd = true) :
    n.literal = [] := by
  obtain ⟨t, ht⟩ := Option.isSome_iff_exists.mp (Node.isSome_of_mem_leaves hn)
  obtain ⟨_, _, hpart | rfl⟩ := (h.mem_leaves hn).leaf t ht
  · rw [Node.marksEnd, ht] at hend
    exact absurd (by simpa using hend) hpart.solid.kind
  · rw [Node.literal, ht]
    rfl

/-- A file and a row of statements lose no token, but for the type parameters of
fields and of constructors without parameters: the tokens of the tree spell the
source exactly if nothing was dropped, and nothing is dropped where there are no
fields and no constructors. -/
theorem Entry.spells_source_iff {entry : Entry} (hentry : entry ≠ .expression) (source : Bytes) :
    ∃ full : Node,
      full.yield.flatMap Token.literal = (Token.significant source).flatMap Token.literal ∧
      full.Lacks (entry.parse source) ∧
      ((entry.parse source).leaves.flatMap Node.literal =
          (Token.significant source).flatMap Token.literal ↔ full = entry.parse source) ∧
      ((entry.parse source).Every (fun n => n.kind ∉ NodeKind.mayDrop) →
        full = entry.parse source) := by
  obtain ⟨full, back, hcut, hlacks, hback⟩ := entry.exists_full source
  rw [hback hentry, List.append_nil] at hcut
  obtain ⟨hsolid, htext⟩ := hcut.literals (Cursor.ofSource_solid source)
  have hspells : (entry.parse source).leaves.flatMap Node.literal =
      (entry.parse source).yield.flatMap Token.literal := by
    rw [Node.flatMap_literal_eq fun n hn hend => (entry.parse_laid source).literal_eq_nil hn hend,
      Node.words_leaves]
  refine ⟨full, htext, hlacks, ⟨fun hsame => ?_, fun hsame => ?_⟩, fun hnone => ?_⟩
  · rw [hspells, ← htext] at hsame
    exact hlacks.eq_of_spelling_eq hsolid hsame
  · rw [hspells, ← htext, hsame]
  · exact List.singleton_inj.mp
      (Frame.Lacks.eq_of_none hlacks fun n hn => List.mem_singleton.mp hn ▸ hnone)

/-- A class with a constructor that keeps its type parameters, and fields. -/
theorem Entry.spells_class :
    ∃ full : Node,
      full.Lacks (Entry.compilationUnit.parse (Bytes.ofString "class A { <T> A(T t) {} int x; }")) ∧
      (Entry.compilationUnit.parse
          (Bytes.ofString "class A { <T> A(T t) {} int x; }")).leaves.flatMap Node.literal =
        Bytes.ofString "classA{<T>A(Tt){}intx;}" ∧
      full = Entry.compilationUnit.parse (Bytes.ofString "class A { <T> A(T t) {} int x; }") := by
  have hentry : Entry.compilationUnit ≠ .expression := by decide
  obtain ⟨full, _, hlacks, hiff, _⟩ :=
    Entry.spells_source_iff hentry (Bytes.ofString "class A { <T> A(T t) {} int x; }")
  exact ⟨full, hlacks, by decide +kernel, hiff.mp (by decide +kernel)⟩

/-- The type parameters of a field are lost. -/
theorem Entry.loses_parameters_of_field :
    (Entry.compilationUnit.parse
        (Bytes.ofString "class A { <T> int x; }")).leaves.flatMap Node.literal =
      Bytes.ofString "classA{intx;}" ∧
    (Token.significant (Bytes.ofString "class A { <T> int x; }")).flatMap Token.literal =
      Bytes.ofString "classA{<T>intx;}" := by
  decide +kernel

end DotCompletion
