import DotCompletion.Proofs.Grammar.Making
import DotCompletion.Proofs.Grammar.Semicolons
import DotCompletion.Proofs.Grammar.Layout

/-!
# How references are joined and where they end

A reference ends with its last token. Behind an operand it is joined by a dot, and
no token of the source lies between the last token of the operand and the dot
(`Entry.parse_joined`): the last token of the operand is the one taken right
before the dot.
-/

namespace DotCompletion

open Token (significant)

/-! ## Cursors -/

/-- A token of the source is ahead, perhaps cut, or behind the cursor. -/
structure Cursor.Tracks (source : Bytes) (c : Cursor) : Prop where
  placed : c.Placed source
  ahead : ∀ u ∈ significant source, (∃ t ∈ c.rest, t.hi = u.hi) ∨ ∃ p ∈ c.last, u.hi ≤ p.offset

namespace Cursor.Tracks

variable {source : Bytes} {c : Cursor}

theorem advance (h : c.Tracks source) : c.advance.Tracks source := by
  refine ⟨h.placed.advance.1, fun u hu => ?_⟩
  cases hrest : c.rest with
  | nil =>
      rw [Cursor.advance, hrest]
      exact h.ahead u hu
  | cons t rest =>
      rw [Cursor.advance, hrest]
      rcases h.ahead u hu with ⟨v, hv, hhi⟩ | ⟨p, hp, hle⟩
      · rw [hrest] at hv
        rcases List.mem_cons.mp hv with rfl | hv
        · exact .inr ⟨_, rfl, Nat.le_of_eq hhi.symm⟩
        · exact .inl ⟨v, hv, hhi⟩
      · have hmem : t ∈ c.rest := by simp [hrest]
        have hlo := (h.placed.last p hp).2 t hmem
        have hlt := (h.placed.parts t hmem).lo_lt_hi
        exact .inr ⟨_, rfl, Nat.le_trans hle (Nat.le_trans hlo (Nat.le_of_lt hlt))⟩

theorem splitAngle (h : c.Tracks source) : c.splitAngle.Tracks source := by
  refine ⟨h.placed.splitAngle.1, fun u hu => ?_⟩
  unfold Cursor.splitAngle
  split
  next => exact h.ahead u hu
  next t rest hrest =>
      split
      next =>
          refine (h.ahead u hu).imp_left ?_
          rintro ⟨v, hv, hhi⟩
          rw [hrest] at hv
          rcases List.mem_cons.mp hv with rfl | hv
          · exact ⟨Cursor.behindAngle v, by simp, hhi⟩
          · exact ⟨v, by simp [hv], hhi⟩
      next => exact h.ahead u hu

theorem making (source : Bytes) : Making (Cursor.Tracks source) fun _ => True where
  advance := advance
  splitAngle := splitAngle
  leaf := fun _ _ => trivial
  missing := fun _ _ => trivial
  around := fun _ _ _ _ => trivial

theorem ofSource (source : Bytes) : (Cursor.ofSource source).Tracks source :=
  ⟨Cursor.placed_ofSource source, fun u hu => .inl ⟨u, hu, rfl⟩⟩

theorem proper (h : c.Tracks source) : c.Proper :=
  ⟨h.placed.solid, by rw [h.placed.eof]; rfl⟩

/-- Nothing lies between the token taken last and the next one. -/
theorem hi_le_or (h : c.Tracks source) {w : Token} (hlast : c.last = some w.span.stop)
    (hrest : c.rest ≠ []) : ∀ u ∈ significant source, u.hi ≤ w.hi ∨ c.next.hi ≤ u.hi := by
  intro u hu
  rcases h.ahead u hu with ⟨v, hv, hhi⟩ | ⟨p, hp, hle⟩
  · right
    cases hc : c.rest with
    | nil => exact absurd hc hrest
    | cons t rest =>
        rw [Cursor.next, hc]
        rw [← hhi]
        rw [hc] at hv
        rcases List.mem_cons.mp hv with rfl | hv
        · exact Nat.le_refl _
        · have hlo := (List.pairwise_cons.mp (hc ▸ h.placed.ordered)).1 v hv
          have hlt := (h.placed.parts v (by simp [hc, hv])).lo_lt_hi
          exact Nat.le_trans hlo (Nat.le_of_lt hlt)
  · left
    rw [hlast] at hp
    cases hp
    exact hle

end Cursor.Tracks

/-- A dot is never a piece of another sign. -/
theorem Token.Part.mem_significant_of_dot {source : Bytes} {t : Token} (h : t.Part source)
    (hdot : t.kind = .dot) : t ∈ significant source := by
  cases h with
  | whole h => exact h
  | angle => cases hdot
  | behind hpart hcut =>
      have htails : ∀ k ∈ Cursor.splittable,
          TokenKind.ofSign ((Bytes.ofString k.name).drop 1) ≠ .dot := by decide
      rw [Cursor.behindAngle, hpart.solid.spelled hcut] at hdot
      exact absurd hdot (htails _ (List.contains_iff_mem.mp hcut))

/-! ## Nodes -/

namespace Node

/-- The children of a reference: a name alone, or something in front of a dot with
no token between. -/
def JoinedByDot (source : Bytes) (children : List Node) : Prop :=
  (∃ list name, children = [list, name]) ∨
  ∃ front dot list name, children = front ++ [.leaf .token dot] ++ list ++ [name] ∧
    dot.kind = .dot ∧ dot ∈ significant source ∧
    ∀ w ∈ (yieldAll front).getLast?, ∀ u ∈ significant source, u.hi ≤ w.hi ∨ dot.hi ≤ u.hi

/-- The node, if it is a reference, is joined by a dot and ends with its last token. -/
structure Joined (source : Bytes) (n : Node) : Prop where
  joined : n.kind = .referenceExpr → JoinedByDot source n.children
  ended : n.kind = .referenceExpr → ∃ t ∈ n.yield.getLast?, t.hi = n.hi

variable {source : Bytes}

theorem Joined.ofNe {n : Node} (h : n.kind ≠ .referenceExpr) : n.Joined source :=
  ⟨fun hkind => absurd hkind h, fun hkind => absurd hkind h⟩

theorem hi_around (kind : NodeKind) (error : Option Diagnostic) (p : Position) (front : List Node)
    (last : Node) : (around kind error p (front ++ [last])).hi = last.hi := by
  cases front with
  | nil => rfl
  | cons first rest => simp [hi, around, spanOf]

end Node

namespace Frame

/-- All references of the frame and below are joined. -/
def AllJoined (source : Bytes) (frame : Frame) : Prop := Node.EveryIn (Node.Joined source) frame

/-- The token taken last is the last one of the frame, and so it was at every
statement below. -/
structure Settled (frame : Frame) (c : Cursor) : Prop where
  ends : ∃ before, frame.Ends before c
  closed : Closed [] frame

theorem Settled.nil (c : Cursor) : Settled [] c := ⟨⟨c.last, .nil c⟩, trivial⟩

/-- The last token of the frame, if it has any, is the one taken last. -/
theorem Settled.last {frame : Frame} {c : Cursor} (h : frame.Settled c) :
    ∀ w ∈ (Node.yieldAll frame).getLast?, c.last = some w.span.stop := by
  obtain ⟨before, hends⟩ := h.ends
  intro w hw
  rw [hends.last, Token.lastStop, Option.mem_def.mp hw]
  rfl

namespace AllJoined

variable {source : Bytes}

theorem leaf {kind : NodeKind} (h : kind ≠ .referenceExpr) (t : Token) :
    AllJoined source [.leaf kind t] :=
  .single (.leaf (.ofNe h))

theorem missing (p : Position) (d : Diagnostic) : AllJoined source [.missing p d] :=
  .single (.missing (.ofNe nofun))

end AllJoined

end Frame

/-! ## Forms -/

namespace Rule

/-- The rules that go on from an operand behind its last token. -/
def needsSettled : Rule → Bool
  | suffixes => true
  | _ => false

/-- What a rule does to the references of a frame. -/
structure Joins (source : Bytes) (r : Rule) (frame : Frame) (c : Cursor) (frame' : Frame)
    (c' : Cursor) : Prop where
  reads : r.Reads frame c frame' c'
  joins : c.Tracks source → r.isOrdinary = true → (r.needsEmpty = true → frame = []) →
    (r.needsSettled = true → frame.Settled c) → frame.AllJoined source → frame'.AllJoined source

end Rule

namespace Form

/-- Behind the form a settled frame is settled, by its looks. -/
def settles (f : Form) : Bool := f.keepsAll false && (f.footing none false).isSome

/-- The form makes no references, begins operands in empty frames and goes on from
them in settled ones. -/
def joins (empty settled : Bool) : Form → Bool
  | take kind => kind != .referenceExpr
  | seq first second => first.joins empty settled && second.joins false (settled && first.settles)
  | choose _ yes no => yes.joins empty settled && no.joins empty settled
  | enclose label body => label.kind != .referenceExpr && body.joins empty settled
  | within body => body.joins true true
  | orElse first second => first.joins true true && second.joins false false
  | ifStuck first second => first.joins empty settled && second.joins false false
  | rule r => r.isOrdinary && (!r.needsEmpty || empty) && (!r.needsSettled || settled)
  | _ => true

variable {source : Bytes} {f : Form} {frame frame' : Frame} {c c' : Cursor}

theorem Does.tracks (h : f.Does (Rule.Joins source) frame c frame' c') (hc : c.Tracks source) :
    c'.Tracks source := by
  have hmaking := Cursor.Tracks.making source
  have hkeeps : f.Does (KeepsNodes (Cursor.Tracks source) fun _ => True) frame c frame' c' :=
    h.mono fun _ _ _ _ _ h => h.reads.keepsNodes hmaking
  exact (hkeeps.keepsNodes hmaking hc fun n _ => .of_forall n fun _ => trivial).1

theorem Does.settled (h : f.Does (Rule.Joins source) frame c frame' c') (hf : f.settles = true)
    (hproper : c.Proper) (hframe : frame.Settled c) : frame'.Settled c' := by
  obtain ⟨hkeeps, hfooting⟩ := Bool.and_eq_true_iff.mp hf
  obtain ⟨full, hfull⟩ := Option.isSome_iff_exists.mp hfooting
  obtain ⟨before, hends⟩ := hframe.ends
  have hframe' := (h.mono fun _ _ _ _ _ h => h.reads.closes).closes hkeeps nofun hfull hproper
    (by rintro _ ⟨⟩) ⟨hends, hframe.closed, nofun⟩
  exact ⟨⟨before, hframe'.ends⟩, hframe'.closed⟩

theorem Does.joined (h : f.Does (Rule.Joins source) frame c frame' c') {empty settled : Bool}
    (hf : f.joins empty settled = true) (hc : c.Tracks source) (hempty : empty = true → frame = [])
    (hframe : settled = true → frame.Settled c) (hall : frame.AllJoined source) :
    frame'.AllJoined source := by
  induction f generalizing frame c frame' c' empty settled with
  | done | splitAngle =>
      obtain ⟨rfl, _⟩ := h
      exact hall
  | take kind =>
      obtain ⟨rfl, _⟩ := h
      exact hall.append (Frame.AllJoined.leaf (by simpa [joins] using hf) _)
  | missing =>
      obtain ⟨rfl, _⟩ := h
      exact hall.append (Frame.AllJoined.missing _ _)
  | discard =>
      obtain ⟨rfl, _⟩ := h
      exact hall.filter _
  | seq first second ihfirst ihsecond =>
      simp only [joins, Bool.and_eq_true] at hf
      obtain ⟨middle, between, hfirst, hsecond⟩ := h
      refine ihsecond hsecond hf.2 (hfirst.tracks hc) nofun (fun hsettled => ?_)
        (ihfirst hfirst hf.1 hc hempty hframe hall)
      rw [Bool.and_eq_true] at hsettled
      exact hfirst.settled hsettled.2 hc.proper (hframe hsettled.1)
  | choose look yes no ihyes ihno =>
      simp only [joins, Bool.and_eq_true] at hf
      rcases h with ⟨_, h⟩ | ⟨_, h⟩
      · exact ihyes h hf.1 hc hempty hframe hall
      · exact ihno h hf.2 hc hempty hframe hall
  | enclose label body ih =>
      simp only [joins, Bool.and_eq_true, bne_iff_ne] at hf
      obtain ⟨children, hbody, rfl⟩ := h
      exact .around (.ofNe hf.1) (ih hbody hf.2 hc hempty hframe hall)
  | within body ih =>
      obtain ⟨nodes, hbody, rfl⟩ := h
      exact hall.append (ih hbody hf hc (fun _ => rfl) (fun _ => .nil c) .nil)
  | orElse first second ihfirst ihsecond =>
      simp only [joins, Bool.and_eq_true] at hf
      obtain ⟨nodes, between, hfirst, ⟨_, hsecond⟩ | ⟨_, rfl, _⟩⟩ := h
      · exact ihsecond hsecond hf.2 (hfirst.tracks hc) nofun nofun hall
      · exact hall.append (ihfirst hfirst hf.1 hc (fun _ => rfl) (fun _ => .nil c) .nil)
  | ifStuck first second ihfirst ihsecond =>
      simp only [joins, Bool.and_eq_true] at hf
      obtain ⟨middle, between, hfirst, ⟨_, hsecond⟩ | ⟨_, rfl, _⟩⟩ := h
      · exact ihsecond hsecond hf.2 (hfirst.tracks hc) nofun nofun
          (ihfirst hfirst hf.1 hc hempty hframe hall)
      · exact ihfirst hfirst hf.1 hc hempty hframe hall
  | rule r =>
      simp only [joins, Bool.and_eq_true, Bool.or_eq_true, Bool.not_eq_true'] at hf
      obtain ⟨⟨hordinary, hneeds⟩, hneeds'⟩ := hf
      exact Rule.Joins.joins h hc hordinary
        (fun h => hempty (hneeds.resolve_left (by simp [h])))
        (fun h => hframe (hneeds'.resolve_left (by simp [h]))) hall

end Form

namespace Grammar

theorem joins_binaryOperators (least : Nat) (levels : List (Nat × List TokenKind)) :
    (binaryOperators least levels).joins false false = true := by
  induction levels with
  | nil => rfl
  | cons level levels ih =>
      unfold binaryOperators
      split
      next =>
          change (true && (binaryOperators least levels).joins false false) = true
          rw [ih]
          rfl
      next => exact ih

end Grammar

namespace Rule

open Form Grammar

/-- The rules that make references. -/
def makesReference : Rule → Bool
  | suffixes | primary => true
  | _ => false

theorem joins_form (r : Rule) (h : r.isOrdinary = true) (hr : r.makesReference = false) :
    r.form.joins r.needsEmpty (r.needsEmpty || r.needsSettled) = true := by
  cases r with
  | operators least =>
      change (true && (binaryOperators least binaryLevels).joins false false) = true
      rw [joins_binaryOperators]
      rfl
  | typeArguments kind | switch kind =>
      have hkind : kind ≠ .referenceExpr := by
        rintro rfl
        cases h
      simp only [form, node, token, joins, Label.kind, bne_iff_ne.mpr hkind]
      rfl
  | nested n => cases n <;> rfl
  | classBody b | localVarDecl b | nameRest b => cases b <;> rfl
  | list close item => cases item <;> rfl
  | suffixes | primary => cases hr
  | _ => rfl

variable {source : Bytes} {frame frame' : Frame} {c c' : Cursor}

/-- A list of type arguments, or an empty one, and a name behind a dot. -/
theorem reference_joins (hc : c.Tracks source)
    (hdot : (Look.next [.dot]).holds frame c.rest = true) (hframe : frame.Settled c)
    (hall : frame.AllJoined source)
    (h : (node .referenceExpr
      (.choose (.next [.less]) (call (.typeArguments .referenceParameterList))
        (fresh .referenceParameterList .done) ++ expectName)).Does (Joins source)
          (frame ++ [Node.leaf .token c.next]) c.advance frame' c') : frame'.AllJoined source := by
  obtain ⟨hrest, hkind⟩ := Cursor.next_mem hdot (by decide)
  rw [List.mem_singleton] at hkind
  obtain ⟨_, ⟨middle, between, hlist, hname⟩, rfl⟩ := h
  have htoken : Form.token.Does (Joins source) frame c (frame ++ [Node.leaf .token c.next])
      c.advance :=
    ⟨rfl, rfl⟩
  have hsettled := hlist.settled rfl hc.advance.proper (htoken.settled rfl hc.proper hframe)
  have hbetween := hlist.tracks hc.advance
  obtain ⟨list, rfl, hnodes⟩ : ∃ list, middle = frame ++ [Node.leaf .token c.next] ++ list ∧
      list.AllJoined source := by
    rcases hlist with ⟨_, list, hlist, rfl⟩ | ⟨_, list, hlist, rfl⟩
    · exact ⟨list, rfl, Joins.joins hlist hc.advance rfl nofun nofun .nil⟩
    · exact ⟨list, rfl, @Does.joined _ _ _ _ _ _ hlist false false rfl hc.advance nofun nofun .nil⟩
  have hsign : Frame.AllJoined source [.leaf .token c.next] := .leaf (by decide) _
  have hjoined (name : Node) : Node.JoinedByDot source
      (frame ++ [Node.leaf .token c.next] ++ list ++ [name]) := by
    refine .inr ⟨frame, c.next, list, name, rfl, hkind, ?_, fun w hw => ?_⟩
    · rcases hc.placed.next with hpart | heof
      · exact hpart.mem_significant_of_dot hkind
      · rw [heof] at hkind
        cases hkind
    · exact hc.hi_le_or (hframe.last w hw) hrest
  rcases hname with ⟨hidentifier, rfl, rfl⟩ | ⟨_, rfl, rfl⟩
  · obtain ⟨hrest', _⟩ := Cursor.next_mem hidentifier (by decide)
    have hnext := (hbetween.placed.solid.next hrest').kind
    have hleaf : Frame.AllJoined source [.leaf .identifier between.next] := .leaf (by decide) _
    refine .around ⟨fun _ => hjoined _, fun _ => ⟨between.next, ?_, ?_⟩⟩
      (((hall.append hsign).append hnodes).append hleaf)
    · simp [Node.yield_leaf .identifier hnext]
    · rw [Node.hi_around]
      rfl
  · have hdotMem := List.mem_append_left (Node.yieldAll list)
      (c.next_mem_yieldAll hc.proper.solid hrest .token frame)
    rw [← Node.yieldAll_append] at hdotMem
    obtain ⟨w, hlast⟩ : ∃ w, (Node.yieldAll (frame ++ [Node.leaf .token c.next] ++ list)).getLast? =
        some w := ⟨_, List.getLast?_eq_some_getLast (List.ne_nil_of_mem hdotMem)⟩
    refine .around ⟨fun _ => hjoined _, fun _ => ⟨w, ?_, ?_⟩⟩
      (((hall.append hsign).append hnodes).append (Frame.AllJoined.missing _ _))
    · rw [Node.yield_around, Node.yieldAll_append, Node.yieldAll_cons, Node.yield_missing,
        Node.yieldAll_nil, List.append_nil, List.append_nil]
      exact hlast
    · rw [Node.hi_around, Node.hi, Cursor.behind, hsettled.last _ hlast]
      rfl

theorem suffixes_joins (hc : c.Tracks source) (hframe : frame.Settled c)
    (hall : frame.AllJoined source) (h : suffixes.form.Does (Joins source) frame c frame' c') :
    frame'.AllJoined source := by
  rcases h with ⟨hdot, middle, behind, hsuffix, hmore⟩ | ⟨_, h⟩
  · have hsettled : middle.Settled behind := hsuffix.settled rfl hc.proper hframe
    refine Joins.joins hmore (hsuffix.tracks hc) rfl nofun (fun _ => hsettled) ?_
    obtain ⟨_, _, ⟨rfl, rfl⟩, hsuffix⟩ := hsuffix
    have hsign : Frame.AllJoined source [.leaf .token c.next] := .leaf (by decide) _
    have hfront := hall.append hsign
    rcases hsuffix with ⟨_, h⟩ | ⟨_, ⟨_, h⟩ | ⟨_, ⟨_, h⟩ | ⟨_, ⟨_, h⟩ | ⟨_, h⟩⟩⟩⟩
    · exact @Does.joined _ _ _ _ _ _ h false false rfl hc.advance nofun nofun hfront
    · exact @Does.joined _ _ _ _ _ _ h false false rfl hc.advance nofun nofun hfront
    · exact @Does.joined _ _ _ _ _ _ h false false rfl hc.advance nofun nofun hfront
    · exact @Does.joined _ _ _ _ _ _ h false false rfl hc.advance nofun nofun hfront
    · exact reference_joins hc hdot hframe hall h
  · exact @Does.joined _ _ _ _ _ _ h false true rfl hc nofun (fun _ => hframe) hall

theorem primary_joins (hc : c.Tracks source) (h : primary.form.Does (Joins source) [] c frame' c') :
    frame'.AllJoined source := by
  have hother {f : Form} (h : f.Does (Joins source) [] c frame' c')
      (hf : f.joins true true = true) : frame'.AllJoined source :=
    h.joined hf hc (fun _ => rfl) (fun _ => .nil c) .nil
  rcases h with ⟨_, h⟩ | ⟨_, ⟨_, h⟩ | ⟨_, ⟨_, h⟩ | ⟨_, ⟨_, h⟩ | ⟨_, ⟨_, h⟩ | ⟨_, ⟨_, h⟩ |
    ⟨_, ⟨_, h⟩ | ⟨_, ⟨hname, h⟩ | ⟨_, h⟩⟩⟩⟩⟩⟩⟩⟩
  case inr.inr.inr.inr.inr.inr.inr.inl =>
    obtain ⟨hrest, _⟩ := Cursor.next_mem hname (by decide)
    have hnext := (hc.placed.solid.next hrest).kind
    obtain ⟨_, ⟨_, c, ⟨_, ⟨_, ⟨rfl, rfl⟩, rfl⟩, rfl⟩, rfl, rfl⟩, rfl⟩ := h
    have hleaf : Frame.AllJoined source [.leaf .identifier c.next] := .leaf (by decide) _
    refine .around ⟨fun _ => .inl ⟨_, _, rfl⟩, fun _ => ⟨c.next, ?_, rfl⟩⟩
      (.append (.around (.ofNe nofun) .nil) hleaf)
    simp [Node.yield_leaf .identifier hnext]
  all_goals exact hother h rfl

theorem Reads.joins {r : Rule} (h : r.Reads frame c frame' c') :
    r.Joins source frame c frame' c' := by
  refine h.induct (Joins source) ?_
  intro r frame c frame' c' hform
  refine ⟨.intro (hform.mono fun _ _ _ _ _ h => h.reads), fun hc hordinary hempty hframe hall => ?_⟩
  cases hreference : r.makesReference with
  | false =>
      refine hform.joined (joins_form r hordinary hreference) hc hempty (fun hsettled => ?_) hall
      rcases Bool.or_eq_true_iff.mp hsettled with h | h
      · rw [hempty h]
        exact .nil c
      · exact hframe h
  | true =>
      cases r with
      | suffixes => exact suffixes_joins hc (hframe rfl) hall hform
      | primary =>
          obtain rfl := hempty rfl
          exact primary_joins hc hform
      | _ => cases hreference

end Rule

/-- Every reference of a tree ends with its last token, and behind an operand it is joined by a
dot, with no token of the source between. -/
theorem Entry.parse_joined (entry : Entry) (source : Bytes) :
    (entry.parse source).Every (Node.Joined source) := by
  obtain ⟨frame, c, hread⟩ := entry.read?_isSome source
  obtain ⟨node, rfl⟩ := Entry.read?_eq_singleton hread
  have hjoins : entry.rule.Joins source [] (Cursor.ofSource source) [node] c :=
    Rule.Reads.joins ⟨_, hread⟩
  simp only [Entry.parse, hread]
  exact hjoins.joins (.ofSource source) (by cases entry <;> rfl) (fun _ => rfl) (fun _ => .nil _)
    .nil node List.mem_cons_self

end DotCompletion
