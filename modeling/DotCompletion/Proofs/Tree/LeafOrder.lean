import DotCompletion.Proofs.Grammar.Losses
import DotCompletion.Tree.Basic

/-!
# The leaves of a tree from left to right

The leaves of a tree stand in the source in the order in which they stand in the
tree, each where its text is. A form that takes a token at the end of the input
makes a leaf of the end; there may be several such leaves, and they all stand
behind the others.
-/

namespace DotCompletion

/-! ## Leaves that mark the end -/

/-- The leaves of a frame that mark the end stand behind the others, and there
are some only at the end of the input. -/
structure Frame.EndsLast (frame : Frame) (c : Cursor) : Prop where
  last : (Node.leavesAll frame).Pairwise fun m n => m.marksEnd = true → n.marksEnd = true
  ended : ∀ n ∈ Node.leavesAll frame, n.marksEnd = true → c.rest = []

namespace Frame.EndsLast

variable {frame nodes : Frame} {c c' : Cursor}

theorem nil (c : Cursor) : EndsLast [] c :=
  ⟨.nil, fun _ hn => nomatch hn⟩

theorem move (h : EndsLast frame c) (honward : Cursor.Onward c c') : EndsLast frame c' :=
  ⟨h.last, fun n hn hend => honward.ended (h.ended n hn hend)⟩

theorem append (h : EndsLast frame c) (hnodes : EndsLast nodes c') (honward : Cursor.Onward c c')
    (hends : c.rest = [] → Node.yieldAll nodes = []) : EndsLast (frame ++ nodes) c' := by
  constructor
  · rw [Node.leavesAll_append, List.pairwise_append]
    refine ⟨h.last, hnodes.last, fun m hm n hn hend => ?_⟩
    by_contra hn'
    have hwords : Node.words (Node.leavesAll nodes) = [] := by
      rw [Node.words_leavesAll fun n _ => n.words_leaves]
      exact hends (h.ended m hm hend)
    obtain ⟨b, _, hb⟩ := Node.mem_leavesAll.mp hn
    obtain ⟨t, ht⟩ := Option.isSome_iff_exists.mp (Node.isSome_of_mem_leaves hb)
    have hmem : t ∈ Node.words (Node.leavesAll nodes) :=
      Node.mem_words.mpr ⟨n, hn, by simpa using hn', ht⟩
    rw [hwords] at hmem
    exact List.not_mem_nil hmem
  · intro n hn hend
    rw [Node.leavesAll_append, List.mem_append] at hn
    rcases hn with hn | hn
    · exact honward.ended (h.ended n hn hend)
    · exact hnodes.ended n hn hend

theorem leaf (hproper : c.Proper) (kind : NodeKind) :
    EndsLast [.leaf kind c.next] c.advance := by
  constructor
  · simp
  · intro n hn hend
    simp only [Node.leavesAll_cons, Node.leaves_leaf, Node.leavesAll_nil, List.append_nil,
      List.mem_singleton] at hn
    subst hn
    by_contra hrest
    have hne : c.rest ≠ [] := fun hnil => hrest ((Cursor.onward_advance c).ended hnil)
    exact (hproper.solid.next hne).kind (by simpa [Node.marksEnd, Node.leaf] using hend)

end Frame.EndsLast

def KeepsEndsLast : Behaviour := fun r frame c frame' c' =>
  r.Reads frame c frame' c' ∧ (c.Proper → frame.EndsLast c → frame'.EndsLast c')

namespace Form

variable {f : Form} {frame frame' : Frame} {c c' : Cursor}

theorem Does.yieldAll_eq_nil (h : f.Does KeepsEndsLast [] c frame' c') (hproper : c.Proper)
    (hrest : c.rest = []) : Node.yieldAll frame' = [] :=
  List.subset_nil.mp
    (addsNothing (h.mono fun _ _ _ _ _ h => h.1.addsNothing) ⟨hrest, hproper.eof⟩).2

theorem Does.endsLast (h : f.Does KeepsEndsLast frame c frame' c') (hproper : c.Proper)
    (hends : frame.EndsLast c) : frame'.EndsLast c' := by
  have honward : ∀ {f : Form} {frame c frame' c'}, f.Does KeepsEndsLast frame c frame' c' →
      Cursor.Onward c c' := fun h => h.onward fun _ _ _ _ _ h => h.1.onward
  induction f generalizing frame c frame' c' with
  | done =>
      obtain ⟨rfl, rfl⟩ := h
      exact hends
  | take kind =>
      obtain ⟨rfl, rfl⟩ := h
      apply hends.append (.leaf hproper kind) (Cursor.onward_advance c)
      intro hrest
      have heof := Cursor.Ended.next ⟨hrest, hproper.eof⟩
      simp [Node.yield_leaf_eof kind heof]
  | missing problem =>
      obtain ⟨rfl, rfl⟩ := h
      exact ⟨by simpa using hends.last, by simpa using hends.ended⟩
  | splitAngle =>
      obtain ⟨rfl, rfl⟩ := h
      exact hends.move (Cursor.onward_splitAngle c)
  | discard kind =>
      obtain ⟨rfl, rfl⟩ := h
      have hsublist := Node.leavesAll_filter_sublist (fun n => n.kind != kind) frame
      exact ⟨hends.last.sublist hsublist, fun n hn => hends.ended n (hsublist.subset hn)⟩
  | seq first second ihfirst ihsecond =>
      obtain ⟨middle, between, hfirst, hsecond⟩ := h
      exact ihsecond hsecond ((honward hfirst).proper hproper) (ihfirst hfirst hproper hends)
  | choose look yes no ihyes ihno =>
      rcases h with ⟨_, h⟩ | ⟨_, h⟩
      · exact ihyes h hproper hends
      · exact ihno h hproper hends
  | enclose label body ih =>
      obtain ⟨children, hbody, rfl⟩ := h
      have hchildren := ih hbody hproper hends
      exact ⟨by simpa using hchildren.last, by simpa using hchildren.ended⟩
  | within body ih =>
      obtain ⟨nodes, hbody, rfl⟩ := h
      apply hends.append (ih hbody hproper (.nil c)) (honward hbody)
      exact hbody.yieldAll_eq_nil hproper
  | orElse first second ihfirst ihsecond =>
      obtain ⟨nodes, between, hfirst, h⟩ := h
      rcases h with ⟨_, hsecond⟩ | ⟨_, rfl, rfl⟩
      · exact ihsecond hsecond ((honward hfirst).proper hproper) (hends.move (honward hfirst))
      · apply hends.append (ihfirst hfirst hproper (.nil c)) (honward hfirst)
        exact hfirst.yieldAll_eq_nil hproper
  | ifStuck first second ihfirst ihsecond =>
      obtain ⟨middle, between, hfirst, h⟩ := h
      have hmiddle := ihfirst hfirst hproper hends
      rcases h with ⟨_, hsecond⟩ | ⟨_, rfl, rfl⟩
      · exact ihsecond hsecond ((honward hfirst).proper hproper) hmiddle
      · exact hmiddle
  | rule name => exact h.2 hproper hends

end Form

theorem Entry.leaves_endsLast (entry : Entry) (source : Bytes) :
    (entry.parse source).leaves.Pairwise fun m n => m.marksEnd = true → n.marksEnd = true := by
  obtain ⟨frame, c, hread⟩ := entry.read?_isSome source
  obtain ⟨node, rfl⟩ := Entry.read?_eq_singleton hread
  have hreads : entry.rule.Reads [] (Cursor.ofSource source) [node] c := ⟨_, hread⟩
  have hkeeps := hreads.induct KeepsEndsLast fun _ _ _ _ _ hform =>
    ⟨.intro (hform.mono fun _ _ _ _ _ h => h.1), hform.endsLast⟩
  have hlast := (hkeeps.2 ⟨Cursor.ofSource_solid source, rfl⟩ (.nil _)).last
  rw [Entry.parse, hread]
  simpa using hlast

/-! ## Where leaves stand -/

theorem Token.Stands.textOf {source : Bytes} {t : Token} (h : t.Stands source) (entry : Entry) :
    (Tree.parse entry source).textOf t.span = t.literal := by
  obtain ⟨before, behind, rfl, hstart, hstop⟩ := h
  have hlo : t.span.start.offset = before.length := by
    rw [hstart, Position.origin_advance_offset]
  have hhi : t.span.stop.offset = before.length + t.literal.length := by
    rw [hstop, Position.origin_advance_offset, List.length_append]
  have hsource : (Tree.parse entry (before ++ (t.literal ++ behind))).source =
      before ++ (t.literal ++ behind) := rfl
  rw [Tree.textOf, Tree.textBetween, hsource, hlo, hhi, if_pos]
  · rw [Int.toNat_natCast, Int.toNat_natCast, Bytes.slice, ← List.append_assoc,
      ← List.length_append, List.take_left, List.drop_left]
  · simp only [List.length_append]
    omega

namespace Node

variable {source : Bytes} {n : Node}

/-- A leaf of a tree of a source is a token of the source, or marks its end. -/
theorem Laid.leaf_cases (h : n.Laid source) (hsome : n.token.isSome = true) :
    ∃ t, n.token = some t ∧ n.span = t.span ∧ n.children = [] ∧
      ((n.marksEnd = false ∧ t.Part source) ∨
        (n.marksEnd = true ∧ t = .endAt (Position.origin.advance source))) := by
  obtain ⟨t, ht⟩ := Option.isSome_iff_exists.mp hsome
  obtain ⟨hspan, hchildren, hpart | rfl⟩ := h.leaf t ht
  · have hkind := hpart.solid.kind
    exact ⟨t, ht, hspan, hchildren, .inl ⟨by simpa [marksEnd, ht] using hkind, hpart⟩⟩
  · exact ⟨_, ht, hspan, hchildren, .inr ⟨by simp [marksEnd, ht, Token.endAt], rfl⟩⟩

theorem pairwise_leavesAll {R : Node → Node → Prop} {row : List Node}
    (hrow : ∀ m ∈ row, m.leaves.Pairwise R)
    (hpairs : row.Pairwise fun a b => ∀ m ∈ a.leaves, ∀ k ∈ b.leaves, R m k) :
    (leavesAll row).Pairwise R := by
  induction row with
  | nil => exact .nil
  | cons n row ih =>
      rw [List.pairwise_cons] at hpairs
      rw [leavesAll_cons, List.pairwise_append]
      refine ⟨hrow n List.mem_cons_self,
        ih (fun m hm => hrow m (List.mem_cons_of_mem _ hm)) hpairs.2, fun m hm k hk => ?_⟩
      obtain ⟨b, hb, hk⟩ := mem_leavesAll.mp hk
      exact hpairs.1 b hb m hm k hk

/-- What holds between the leaves of children holds between all leaves. -/
theorem pairwise_leaves {R : Node → Node → Prop}
    (h : n.Every fun n => (n.token.isSome = true → n.children = []) ∧
      n.children.Pairwise fun a b => ∀ m ∈ a.leaves, ∀ k ∈ b.leaves, R m k) :
    n.leaves.Pairwise R := by
  induction n using Node.induct with
  | step n ih =>
      obtain ⟨hchildless, hpairs⟩ := h.own
      rw [leaves_eq]
      by_cases hsome : n.token.isSome = true
      · simp [hsome, hchildless hsome]
      · simp only [hsome, Bool.false_eq_true, if_false, List.nil_append]
        exact pairwise_leavesAll (fun m hm => ih m hm (h.child hm)) hpairs

theorem offsets_of_span {t : Token} (h : n.span = t.span) : n.lo = t.lo ∧ n.hi = t.hi := by
  simp [lo, hi, h, Token.lo, Token.hi]

/-- A leaf in front of another one ends where the other begins, or earlier. -/
theorem hi_le_lo_of_leaves {a b m k : Node} (ha : a.Every (Laid source))
    (hb : b.Every (Laid source)) (hab : a.Before b) (hm : m ∈ a.leaves) (hk : k ∈ b.leaves)
    (hend : m.marksEnd = true → k.marksEnd = true) :
    m.hi ≤ k.lo ∧ (m.marksEnd = false → m.lo < k.lo) := by
  obtain ⟨t, ht, htspan, -, htcase⟩ := (ha.mem_leaves hm).leaf_cases (isSome_of_mem_leaves hm)
  obtain ⟨u, hu, huspan, -, hucase⟩ := (hb.mem_leaves hk).leaf_cases (isSome_of_mem_leaves hk)
  have hlength : (Token.endAt (Position.origin.advance source)).span.start.offset =
      source.length := Position.origin_advance_offset source
  rcases htcase with ⟨hm', htpart⟩ | ⟨hm', rfl⟩
  · have hlt : t.lo < t.hi := htpart.lo_lt_hi
    have hle : t.hi ≤ k.lo := by
      rcases hucase with ⟨hk', hupart⟩ | ⟨hk', rfl⟩
      · -- both are tokens: the first stands in front of the node around the second
        have htyield : t ∈ a.yield := by
          rw [← words_leaves]
          exact mem_words.mpr ⟨m, hm, hm', ht⟩
        have huyield : u ∈ b.yield := by
          rw [← words_leaves]
          exact mem_words.mpr ⟨k, hk, hk', hu⟩
        have hbefore := (hab.tokens t htyield).1
        have hcovers := (hb.own.covers u huyield).1
        rw [lo, huspan]
        exact Nat.le_trans hbefore hcovers
      · rw [lo, huspan, hlength]
        exact htpart.stands.stop_in.offset_le
    obtain ⟨hlo, hhi⟩ := offsets_of_span htspan
    rw [hlo, hhi]
    exact ⟨hle, fun _ => Nat.lt_of_lt_of_le hlt hle⟩
  · rcases hucase with ⟨hk', -⟩ | ⟨-, rfl⟩
    · rw [hend hm'] at hk'
      cases hk'
    · refine ⟨?_, fun hm'' => ?_⟩
      · rw [hi, lo, htspan, huspan]
        exact Nat.le_refl _
      · rw [hm'] at hm''
        cases hm''

end Node

/-- The leaves of every tree have no children and the text that stands in their
place. They stand one behind the other and inside of all nodes around them, and
their tokens are some of those of the source, in the same order and none of them
twice, where signs may be cut. Leaves that mark the end of the input are
excepted: they stand at the end, behind all others and on top of each other, and
need not stand inside of the nodes around them. -/
theorem Entry.leaves_in_order (entry : Entry) (source : Bytes) :
    (∀ n ∈ (entry.parse source).leaves,
      n.children = [] ∧ (Tree.parse entry source).textOf n.span = n.literal ∧
        (n.marksEnd = true → n.span = .point (Position.origin.advance source))) ∧
    ((entry.parse source).leaves.Pairwise fun m n =>
      m.hi ≤ n.lo ∧ (m.marksEnd = false → m.lo < n.lo) ∧
        (m.marksEnd = true → n.marksEnd = true)) ∧
    ((entry.parse source).Every fun a =>
      ∀ n ∈ a.leaves, n.marksEnd = false → a.lo ≤ n.lo ∧ n.hi ≤ a.hi) ∧
    ∃ row, Token.Cut (Token.significant source) row ∧
      (Node.words (entry.parse source).leaves).Sublist row := by
  have hlaid := entry.parse_laid source
  refine ⟨fun n hn => ?_, ?_, ?_, ?_⟩
  · obtain ⟨t, ht, hspan, hchildren, hcase⟩ :=
      (hlaid.mem_leaves hn).leaf_cases (Node.isSome_of_mem_leaves hn)
    have hliteral : n.literal = t.literal := by rw [Node.literal, ht]; rfl
    rw [hspan, hliteral]
    rcases hcase with ⟨hend, hpart⟩ | ⟨_, rfl⟩
    · refine ⟨hchildren, hpart.stands.textOf entry, fun hend' => ?_⟩
      rw [hend] at hend'
      cases hend'
    · exact ⟨hchildren, (Token.Stands.endAt source).textOf entry, fun _ => rfl⟩
  · have horder : (entry.parse source).leaves.Pairwise fun m n =>
        (m.marksEnd = true → n.marksEnd = true) →
          m.hi ≤ n.lo ∧ (m.marksEnd = false → m.lo < n.lo) := by
      apply Node.pairwise_leaves
      apply hlaid.imp
      intro a ha
      refine ⟨fun hsome => ?_, ?_⟩
      · obtain ⟨_, _, _, hchildren, _⟩ := ha.own.leaf_cases hsome
        exact hchildren
      · refine ha.own.ordered.imp_of_mem fun hb hb' hbefore m hm k hk => ?_
        exact Node.hi_le_lo_of_leaves (ha.child hb) (ha.child hb') hbefore hm hk
    refine (horder.and (entry.leaves_endsLast source)).imp ?_
    rintro m n ⟨himp, hends⟩
    exact ⟨(himp hends).1, (himp hends).2, hends⟩
  · apply hlaid.imp
    intro a ha n hn hend
    obtain ⟨t, ht, hspan, _⟩ :=
      (ha.mem_leaves hn).leaf_cases (Node.isSome_of_mem_leaves hn)
    have hyield : t ∈ a.yield := by
      rw [← Node.words_leaves]
      exact Node.mem_words.mpr ⟨n, hn, hend, ht⟩
    obtain ⟨hlo, hhi⟩ := Node.offsets_of_span hspan
    rw [hlo, hhi]
    exact ha.own.covers t hyield
  · obtain ⟨full, back, hcut, hlacks, -⟩ := entry.exists_full source
    refine ⟨full.yield ++ back, hcut, ?_⟩
    rw [Node.words_leaves]
    have hsublist : (entry.parse source).yield.Sublist full.yield := by
      simpa using Frame.Lacks.yield_sublist hlacks
    exact hsublist.trans (List.sublist_append_left _ _)

/-- What was taken for a loop over a collection breaks off in its type, and the
end of the input is taken twice, for the name and for the colon. -/
theorem Entry.end_taken_twice :
    ¬((Entry.statements.parse (Bytes.ofString "for (a<b<.c>> x : y ")).leaves.Pairwise
      fun m n => m.lo < n.lo ∧ m.hi ≤ n.lo) ∧
    (Entry.statements.parse (Bytes.ofString "for (a<b<.c>> x : y ")).leaves.filterMap
      (fun n => if n.marksEnd then some (n.kind, n.lo) else none) =
      [(.identifier, 20), (.token, 20)] ∧
    (Entry.statements.parse (Bytes.ofString "for (a<b<.c>> x : y ")).children.map
      (fun n => (n.kind, n.hi)) = [(.enhancedForStmt, 19)] := by
  decide +kernel

end DotCompletion
