import DotCompletion.Proofs.Grammar.WholeInput
import DotCompletion.Proofs.Node.Yield
import DotCompletion.Proofs.Token.Placement

/-!
# Where nodes stand

Every node covers the tokens below it, and the children of a node stand one
behind the other as far as they have tokens. Nodes without tokens have no such
order among themselves: one that stands for something missing is put behind the
last token taken, one without children in front of the next token.

The statement that carries the induction is about a frame and a cursor: the
nodes of the frame lie between an edge and the next token (`Frame.Rests`).
-/

namespace DotCompletion

/-! ## Cursors -/

namespace Cursor

/-- The cursor stands among tokens of the source, in order. -/
structure Placed (source : Bytes) (c : Cursor) : Prop where
  parts : ∀ t ∈ c.rest, t.Part source
  ordered : c.rest.Pairwise fun t u => t.hi ≤ u.lo
  eof : c.eof = .endAt (Position.origin.advance source)
  last : ∀ p ∈ c.last, p.In source ∧ ∀ t ∈ c.rest, p.offset ≤ t.lo
  /-- No token of the source is passed over; one that can be cut may be half
  read. -/
  ahead : ∀ u ∈ Token.significant source, splittable.contains u.kind = false →
    u ∈ c.rest ∨ ∃ p ∈ c.last, u.hi ≤ p.offset

/-- Nothing that lies in front of the first cursor lies behind the second. -/
structure Further (c c' : Cursor) : Prop where
  behind : c.behind.offset ≤ c'.behind.offset
  next : c.next.lo ≤ c'.next.lo

theorem Further.refl (c : Cursor) : Further c c := ⟨Nat.le_refl _, Nat.le_refl _⟩

theorem Further.trans {c₁ c₂ c₃ : Cursor} (h : Further c₁ c₂) (h' : Further c₂ c₃) :
    Further c₁ c₃ :=
  ⟨Nat.le_trans h.behind h'.behind, Nat.le_trans h.next h'.next⟩

theorem placed_ofSource (source : Bytes) : (ofSource source).Placed source where
  parts := fun _ ht => .whole ht
  ordered := Token.pairwise_significant source
  eof := rfl
  last := by rintro _ ⟨⟩
  ahead := fun _ hu _ => .inl hu

namespace Placed

variable {source : Bytes} {c : Cursor}

/-- The next token is one of the source, or marks its end. -/
theorem next (h : c.Placed source) :
    c.next.Part source ∨ c.next = .endAt (Position.origin.advance source) := by
  cases hrest : c.rest with
  | nil => exact .inr (by rw [Cursor.next, hrest]; exact h.eof)
  | cons t rest =>
      refine .inl ?_
      rw [Cursor.next, hrest]
      exact h.parts t (by simp [hrest])

theorem next_stands (h : c.Placed source) : c.next.Stands source := by
  rcases h.next with hpart | heof
  · exact hpart.stands
  · rw [heof]
    exact .endAt source

theorem solid (h : c.Placed source) : c.Solid := fun t ht => (h.parts t ht).solid

theorem behind_in (h : c.Placed source) : c.behind.In source := by
  cases hlast : c.last with
  | none =>
      rw [Cursor.behind, hlast]
      exact h.next_stands.start_in
  | some p =>
      rw [Cursor.behind, hlast]
      exact (h.last p hlast).1

theorem behind_le (h : c.Placed source) : c.behind.offset ≤ c.next.lo := by
  cases hlast : c.last with
  | none =>
      rw [Cursor.behind, hlast]
      exact Nat.le_refl _
  | some p =>
      obtain ⟨hin, hle⟩ := h.last p hlast
      rw [Cursor.behind, hlast, Cursor.next]
      cases hrest : c.rest with
      | nil =>
          rw [List.head?_nil, Option.getD_none, h.eof, Token.lo_endAt,
            Position.origin_advance_offset]
          exact hin.offset_le
      | cons t rest => exact hle t (by simp [hrest])

/-- Taking a token puts the cursor behind it. -/
theorem advance (h : c.Placed source) :
    c.advance.Placed source ∧ Further c c.advance ∧
      (c.rest ≠ [] → c.advance.behind = c.next.span.stop ∧ c.next.hi ≤ c.advance.next.lo) := by
  cases hrest : c.rest with
  | nil =>
      have hsame : c.advance = c := by rw [Cursor.advance, hrest]
      rw [hsame]
      exact ⟨h, .refl c, fun hne => absurd rfl hne⟩
  | cons t rest =>
      have hadvance : c.advance =
          { c with rest := rest, last := some t.span.stop, taken := c.taken + 1 } := by
        rw [Cursor.advance, hrest]
      have hnext : c.next = t := by rw [Cursor.next, hrest]; rfl
      have hpart := h.parts t (by simp [hrest])
      obtain ⟨hlater, hordered⟩ := List.pairwise_cons.mp (hrest ▸ h.ordered)
      have hbehind : c.advance.behind = t.span.stop := by rw [hadvance]; rfl
      have hhi : t.hi ≤ c.advance.next.lo := by
        rw [hadvance, Cursor.next]
        cases hrest' : rest with
        | nil =>
            rw [List.head?_nil, Option.getD_none, h.eof, Token.lo_endAt,
              Position.origin_advance_offset]
            exact hpart.stands.stop_in.offset_le
        | cons u rest' => exact hlater u (by simp [hrest'])
      have hlt := hpart.lo_lt_hi
      refine ⟨?_, ⟨?_, ?_⟩, fun _ => ⟨by rw [hbehind, hnext], by rw [hnext]; exact hhi⟩⟩
      · rw [hadvance]
        exact
          { parts := fun u hu => h.parts u (by simp [hrest, hu])
            ordered := hordered
            eof := h.eof
            last := by rintro _ ⟨⟩; exact ⟨hpart.stands.stop_in, hlater⟩
            ahead := by
              intro u hu hwhole
              rcases h.ahead u hu hwhole with hu | ⟨p, hp, hle⟩
              · rw [hrest] at hu
                rcases List.mem_cons.mp hu with rfl | hu
                · exact .inr ⟨_, rfl, Nat.le_refl _⟩
                · exact .inl hu
              · have hlo := (h.last p hp).2 t (by simp [hrest])
                exact .inr ⟨_, rfl, Nat.le_trans hle (Nat.le_trans hlo (Nat.le_of_lt hlt))⟩ }
      · have hle := h.behind_le
        rw [hnext] at hle
        rw [hbehind]
        exact Nat.le_trans hle (Nat.le_of_lt hlt)
      · rw [hnext]
        exact Nat.le_trans (Nat.le_of_lt hlt) hhi

/-- Cutting the next token moves nothing. -/
theorem splitAngle (h : c.Placed source) :
    c.splitAngle.Placed source ∧ c.splitAngle.behind = c.behind ∧
      c.splitAngle.next.lo = c.next.lo := by
  cases hrest : c.rest with
  | nil =>
      have hsame : c.splitAngle = c := by rw [Cursor.splitAngle, hrest]
      rw [hsame]
      exact ⟨h, rfl, rfl⟩
  | cons t rest =>
      by_cases hcut : splittable.contains t.kind = true
      · have hsplit : c.splitAngle = { c with rest := angleOf t :: behindAngle t :: rest } := by
          rw [Cursor.splitAngle, hrest]
          exact if_pos hcut
        have hpart := h.parts t (by simp [hrest])
        obtain ⟨hlater, hordered⟩ := List.pairwise_cons.mp (hrest ▸ h.ordered)
        have hnext : c.next = t := by rw [Cursor.next, hrest]; rfl
        have hangleLt := (Token.Part.angle hpart hcut).lo_lt_hi
        have hbehindLt := (Token.Part.behind hpart hcut).lo_lt_hi
        refine ⟨?_, ?_, ?_⟩
        · rw [hsplit]
          refine ⟨?_, ?_, h.eof, ?_, ?_⟩
          · intro u hu
            simp only [List.mem_cons] at hu
            rcases hu with rfl | rfl | hu
            · exact .angle hpart hcut
            · exact .behind hpart hcut
            · exact h.parts u (by simp [hrest, hu])
          · refine .cons ?_ (.cons hlater hordered)
            intro u hu
            simp only [List.mem_cons] at hu
            rcases hu with rfl | hu
            · exact Nat.le_refl _
            · exact Nat.le_trans (Nat.le_of_lt hbehindLt) (hlater u hu)
          · intro p hp
            obtain ⟨hin, hle⟩ := h.last p hp
            have hlo := hle t (by simp [hrest])
            refine ⟨hin, fun u hu => ?_⟩
            simp only [List.mem_cons] at hu
            rcases hu with rfl | rfl | hu
            · exact hlo
            · exact Nat.le_trans hlo (Nat.le_of_lt hangleLt)
            · exact hle u (by simp [hrest, hu])
          · intro u hu hwhole
            refine (h.ahead u hu hwhole).imp_left fun hu => ?_
            rw [hrest] at hu
            rcases List.mem_cons.mp hu with rfl | hu
            · rw [hwhole] at hcut
              cases hcut
            · exact List.mem_cons_of_mem _ (List.mem_cons_of_mem _ hu)
        · rw [hsplit, Cursor.behind, Cursor.behind, hnext]
          rfl
        · rw [hsplit, hnext]
          rfl
      · have hsame : c.splitAngle = c := by
          rw [Cursor.splitAngle, hrest]
          exact if_neg hcut
        rw [hsame]
        exact ⟨h, rfl, rfl⟩

end Placed

end Cursor

/-! ## Nodes -/

namespace Node

/-- The offset where the span of the node begins. -/
def lo (n : Node) : Nat := n.span.start.offset

/-- The offset where the span of the node ends. -/
def hi (n : Node) : Nat := n.span.stop.offset

/-- The first node stands in front of the second, as far as they have tokens. -/
structure Before (m n : Node) : Prop where
  tokens : ∀ u ∈ m.yield, u.hi ≤ n.lo ∧ u.hi ≤ n.hi
  spans : ∀ v ∈ n.yield, m.lo ≤ v.lo ∧ m.hi ≤ v.lo

/-- The node stands in the source and covers its tokens. -/
structure Laid (source : Bytes) (n : Node) : Prop where
  start_in : n.span.start.In source
  stop_in : n.span.stop.In source
  leaf : ∀ t ∈ n.token, n.span = t.span ∧ n.children = [] ∧
    (t.Part source ∨ t = .endAt (Position.origin.advance source))
  point : n.token = none → n.children = [] → n.span.start = n.span.stop
  covers : ∀ v ∈ n.yield, n.lo ≤ v.lo ∧ v.hi ≤ n.hi
  ordered : n.children.Pairwise Before

/-- The tokens of a node are tokens of the source. -/
theorem Every.part_of_mem_yield {source : Bytes} {n : Node} {t : Token}
    (hn : n.Every (Laid source)) (ht : t ∈ n.yield) : t.Part source := by
  rw [← words_leaves] at ht
  obtain ⟨m, hm, hend, htoken⟩ := mem_words.mp ht
  rcases ((hn.mem_leaves hm).leaf t htoken).2.2 with hpart | rfl
  · exact hpart
  · simp [marksEnd, htoken, Token.endAt] at hend

theorem Laid.around {source : Bytes} (kind : NodeKind) (error : Option Diagnostic)
    {p : Position} {children : List Node} (hp : p.In source)
    (hchildren : ∀ n ∈ children, n.Laid source) (hordered : children.Pairwise Before) :
    (around kind error p children).Laid source := by
  cases children with
  | nil =>
      exact
        { start_in := hp, stop_in := hp, leaf := by rintro _ ⟨⟩, point := fun _ _ => rfl,
          covers := by rintro _ ⟨⟩, ordered := .nil }
  | cons first rest =>
      refine
        { start_in := (hchildren first List.mem_cons_self).start_in
          stop_in := (hchildren _ (List.getLast_mem _)).stop_in
          leaf := by rintro _ ⟨⟩
          point := fun _ hnil => nomatch hnil
          covers := ?_
          ordered := hordered }
      intro v hv
      rw [yield_around, mem_yieldAll] at hv
      obtain ⟨n, hn, hv⟩ := hv
      have hcovers := (hchildren n hn).covers v hv
      constructor
      · rcases List.mem_cons.mp hn with rfl | hn
        · exact hcovers.1
        · exact ((List.pairwise_cons.mp hordered).1 n hn).spans v hv |>.1
      · have hsplit := List.dropLast_append_getLast (List.cons_ne_nil first rest)
        rw [← hsplit] at hn hordered
        rcases List.mem_append.mp hn with hn | hn
        · exact ((List.pairwise_append.mp hordered).2.2 n hn _ List.mem_cons_self).tokens v hv |>.2
        · rw [List.mem_singleton] at hn
          subst hn
          exact hcovers.2

end Node

/-! ## Frames -/

namespace Frame

/-- The nodes of a frame stand in order between an edge and the next token of the
cursor; their tokens stand between a start and the last token taken. -/
structure Rests (source : Bytes) (edge start : Nat) (frame : Frame) (c : Cursor) : Prop where
  cursor : c.Placed source
  edge_le : edge ≤ c.behind.offset
  start_le : start ≤ c.next.lo
  nodes : ∀ n ∈ frame, n.Every (Node.Laid source)
  ordered : frame.Pairwise Node.Before
  spans : ∀ n ∈ frame, (edge ≤ n.lo ∧ edge ≤ n.hi) ∧ n.lo ≤ c.next.lo ∧ n.hi ≤ c.next.lo
  tokens : ∀ n ∈ frame, ∀ v ∈ n.yield, start ≤ v.lo ∧ v.hi ≤ c.behind.offset

namespace Rests

variable {source : Bytes} {edge start : Nat} {frame : Frame} {c : Cursor}

/-- A frame without nodes. -/
theorem nil (h : c.Placed source) : Rests source c.behind.offset c.next.lo [] c where
  cursor := h
  edge_le := Nat.le_refl _
  start_le := Nat.le_refl _
  nodes := by rintro _ ⟨⟩
  ordered := .nil
  spans := by rintro _ ⟨⟩
  tokens := by rintro _ ⟨⟩

/-- The cursor went on without a new node. -/
theorem move (h : Rests source edge start frame c) {c' : Cursor} (hplaced : c'.Placed source)
    (hfurther : Cursor.Further c c') : Rests source edge start frame c' where
  cursor := hplaced
  edge_le := Nat.le_trans h.edge_le hfurther.behind
  start_le := Nat.le_trans h.start_le hfurther.next
  nodes := h.nodes
  ordered := h.ordered
  spans := fun n hn => ⟨(h.spans n hn).1, Nat.le_trans (h.spans n hn).2.1 hfurther.next,
    Nat.le_trans (h.spans n hn).2.2 hfurther.next⟩
  tokens := fun n hn v hv =>
    ⟨(h.tokens n hn v hv).1, Nat.le_trans (h.tokens n hn v hv).2 hfurther.behind⟩

/-- Nodes that were made behind a frame stand behind it. -/
theorem append (h : Rests source edge start frame c) {nodes : Frame} {c' : Cursor}
    (h' : Rests source c.behind.offset c.next.lo nodes c') :
    Rests source edge start (frame ++ nodes) c' := by
  have hmoved := h.move h'.cursor ⟨h'.edge_le, h'.start_le⟩
  refine
    { cursor := h'.cursor, edge_le := hmoved.edge_le, start_le := hmoved.start_le,
      nodes := ?_, ordered := ?_, spans := ?_, tokens := ?_ }
  · intro n hn
    exact (List.mem_append.mp hn).elim (h.nodes n) (h'.nodes n)
  · refine List.pairwise_append.mpr ⟨h.ordered, h'.ordered, fun m hm n hn => ⟨?_, ?_⟩⟩
    · intro u hu
      have hle := (h.tokens m hm u hu).2
      have hedge := (h'.spans n hn).1
      exact ⟨Nat.le_trans hle hedge.1, Nat.le_trans hle hedge.2⟩
    · intro v hv
      have hle := (h.spans m hm).2
      have hstart := (h'.tokens n hn v hv).1
      exact ⟨Nat.le_trans hle.1 hstart, Nat.le_trans hle.2 hstart⟩
  · intro n hn
    rcases List.mem_append.mp hn with hn | hn
    · exact hmoved.spans n hn
    · have hedge := h.edge_le
      have hspan := h'.spans n hn
      exact ⟨⟨Nat.le_trans hedge hspan.1.1, Nat.le_trans hedge hspan.1.2⟩, hspan.2⟩
  · intro n hn v hv
    rcases List.mem_append.mp hn with hn | hn
    · exact hmoved.tokens n hn v hv
    · have hspan := h'.tokens n hn v hv
      exact ⟨Nat.le_trans h.start_le hspan.1, hspan.2⟩

/-- A frame of which some nodes are dropped. -/
theorem sublist (h : Rests source edge start frame c) {kept : Frame} (hkept : kept.Sublist frame) :
    Rests source edge start kept c where
  cursor := h.cursor
  edge_le := h.edge_le
  start_le := h.start_le
  nodes := fun n hn => h.nodes n (hkept.subset hn)
  ordered := h.ordered.sublist hkept
  spans := fun n hn => h.spans n (hkept.subset hn)
  tokens := fun n hn => h.tokens n (hkept.subset hn)

/-- The next token as a leaf. -/
theorem leaf (h : c.Placed source) (kind : NodeKind) :
    Rests source c.behind.offset c.next.lo [.leaf kind c.next] c.advance := by
  obtain ⟨hplaced, hfurther, hmoved⟩ := h.advance
  have hbehind := h.behind_le
  have hstands := h.next_stands
  have hle : c.next.lo ≤ c.next.hi := by
    rw [hstands.hi_eq]
    omega
  have hhi : c.next.hi ≤ c.advance.next.lo := by
    by_cases hrest : c.rest = []
    · have hsame : c.advance = c := by rw [Cursor.advance, hrest]
      have heof : c.next = .endAt (Position.origin.advance source) := by
        rw [Cursor.next, hrest]
        exact h.eof
      rw [hsame, heof]
      exact Nat.le_refl _
    · exact (hmoved hrest).2
  have hyield : ∀ v ∈ (Node.leaf kind c.next).yield, v = c.next ∧ c.next.kind ≠ .eof := by
    intro v hv
    by_cases hkind : c.next.kind = .eof
    · rw [Node.yield_leaf_eof _ hkind] at hv
      cases hv
    · rw [Node.yield_leaf _ hkind, List.mem_singleton] at hv
      exact ⟨hv, hkind⟩
  refine
    { cursor := hplaced, edge_le := hfurther.behind, start_le := hfurther.next, nodes := ?_,
      ordered := List.pairwise_singleton _ _, spans := ?_, tokens := ?_ }
  · intro n hn
    rw [List.mem_singleton.mp hn]
    refine .leaf ?_
    exact
      { start_in := hstands.start_in
        stop_in := hstands.stop_in
        leaf := by rintro _ ⟨⟩; exact ⟨rfl, rfl, h.next⟩
        point := by rintro ⟨⟩
        covers := by
          intro v hv
          obtain ⟨rfl, _⟩ := hyield v hv
          exact ⟨Nat.le_refl _, Nat.le_refl _⟩
        ordered := .nil }
  · intro n hn
    rw [List.mem_singleton.mp hn]
    exact ⟨⟨hbehind, Nat.le_trans hbehind hle⟩, hfurther.next, hhi⟩
  · intro n hn v hv
    rw [List.mem_singleton.mp hn] at hv
    obtain ⟨rfl, hkind⟩ := hyield v hv
    have hrest : c.rest ≠ [] := by
      intro hrest
      rw [Cursor.next, hrest, List.head?_nil, Option.getD_none, h.eof] at hkind
      exact hkind rfl
    refine ⟨Nat.le_refl _, ?_⟩
    rw [(hmoved hrest).1]
    exact Nat.le_refl _

/-- An empty node behind the last token taken. -/
theorem missing (h : c.Placed source) (d : Diagnostic) :
    Rests source c.behind.offset c.next.lo [.missing c.behind d] c where
  cursor := h
  edge_le := Nat.le_refl _
  start_le := Nat.le_refl _
  nodes := by
    intro n hn
    rw [List.mem_singleton.mp hn]
    refine .missing ?_
    exact
      { start_in := h.behind_in, stop_in := h.behind_in, leaf := by rintro _ ⟨⟩,
        point := fun _ _ => rfl, covers := by rintro _ ⟨⟩, ordered := .nil }
  ordered := List.pairwise_singleton _ _
  spans := by
    intro n hn
    rw [List.mem_singleton.mp hn]
    exact ⟨⟨Nat.le_refl _, Nat.le_refl _⟩, h.behind_le, h.behind_le⟩
  tokens := by
    intro n hn v hv
    rw [List.mem_singleton.mp hn] at hv
    cases hv

/-- One node made of a frame. -/
theorem around (h : Rests source edge start frame c) (kind : NodeKind)
    (error : Option Diagnostic) {p : Position} (hp : p.In source) (hedge : edge ≤ p.offset)
    (hnext : p.offset ≤ c.next.lo) :
    Rests source edge start [.around kind error p frame] c where
  cursor := h.cursor
  edge_le := h.edge_le
  start_le := h.start_le
  nodes := by
    intro n hn
    rw [List.mem_singleton.mp hn]
    exact .intro (.around kind error hp (fun m hm => (h.nodes m hm).own) h.ordered) h.nodes
  ordered := List.pairwise_singleton _ _
  spans := by
    intro n hn
    rw [List.mem_singleton.mp hn]
    cases frame with
    | nil => exact ⟨⟨hedge, hedge⟩, hnext, hnext⟩
    | cons first rest =>
        have hfirst := h.spans first List.mem_cons_self
        have hlast := h.spans _ (List.getLast_mem (List.cons_ne_nil first rest))
        exact ⟨⟨hfirst.1.1, hlast.1.2⟩, hfirst.2.1, hlast.2.2⟩
  tokens := by
    intro n hn v hv
    rw [List.mem_singleton.mp hn, Node.yield_around, Node.mem_yieldAll] at hv
    obtain ⟨m, hm, hv⟩ := hv
    exact h.tokens m hm v hv

end Rests

end Frame

/-! ## Forms and rules -/

/-- The frame and the cursor stay in order. -/
def StaysLaid (source : Bytes) : Behaviour := fun _ frame c frame' c' =>
  ∀ edge start, frame.Rests source edge start c →
    frame'.Rests source edge start c' ∧ Cursor.Further c c'

theorem Form.Does.staysLaid {source : Bytes} {f : Form} {frame frame' : Frame} {c c' : Cursor}
    {edge start : Nat} (h : f.Does (StaysLaid source) frame c frame' c')
    (hrests : frame.Rests source edge start c) :
    frame'.Rests source edge start c' ∧ Cursor.Further c c' := by
  induction f generalizing frame c frame' c' edge start with
  | done =>
      obtain ⟨rfl, rfl⟩ := h
      exact ⟨hrests, .refl _⟩
  | take kind =>
      obtain ⟨rfl, rfl⟩ := h
      exact ⟨hrests.append (.leaf hrests.cursor kind), hrests.cursor.advance.2.1⟩
  | missing problem =>
      obtain ⟨rfl, rfl⟩ := h
      exact ⟨hrests.append (.missing hrests.cursor _), .refl _⟩
  | splitAngle =>
      obtain ⟨rfl, rfl⟩ := h
      obtain ⟨hplaced, hbehind, hnext⟩ := hrests.cursor.splitAngle
      have hfurther : Cursor.Further c c.splitAngle :=
        ⟨Nat.le_of_eq (by rw [hbehind]), Nat.le_of_eq hnext.symm⟩
      exact ⟨hrests.move hplaced hfurther, hfurther⟩
  | discard kind =>
      obtain ⟨rfl, rfl⟩ := h
      exact ⟨hrests.sublist List.filter_sublist, .refl _⟩
  | seq first second ihfirst ihsecond =>
      obtain ⟨middle, between, hfirst, hsecond⟩ := h
      obtain ⟨hmiddle, hfurther⟩ := ihfirst hfirst hrests
      obtain ⟨hframe', hfurther'⟩ := ihsecond hsecond hmiddle
      exact ⟨hframe', hfurther.trans hfurther'⟩
  | choose look yes no ihyes ihno =>
      rcases h with ⟨_, hyes⟩ | ⟨_, hno⟩
      · exact ihyes hyes hrests
      · exact ihno hno hrests
  | enclose label body ih =>
      obtain ⟨children, hbody, rfl⟩ := h
      obtain ⟨hchildren, hfurther⟩ := ih hbody hrests
      refine ⟨hchildren.around _ _ hrests.cursor.next_stands.start_in ?_ hfurther.next, hfurther⟩
      exact Nat.le_trans hrests.edge_le hrests.cursor.behind_le
  | within body ih =>
      obtain ⟨nodes, hbody, rfl⟩ := h
      obtain ⟨hnodes, hfurther⟩ := ih hbody (.nil hrests.cursor)
      exact ⟨hrests.append hnodes, hfurther⟩
  | orElse first second ihfirst ihsecond =>
      obtain ⟨nodes, between, hfirst, hrest⟩ := h
      obtain ⟨hnodes, hfurther⟩ := ihfirst hfirst (.nil hrests.cursor)
      rcases hrest with ⟨_, hsecond⟩ | ⟨_, rfl, rfl⟩
      · obtain ⟨hframe', hfurther'⟩ := ihsecond hsecond (hrests.move hnodes.cursor hfurther)
        exact ⟨hframe', hfurther.trans hfurther'⟩
      · exact ⟨hrests.append hnodes, hfurther⟩
  | ifStuck first second ihfirst ihsecond =>
      obtain ⟨middle, between, hfirst, hrest⟩ := h
      obtain ⟨hmiddle, hfurther⟩ := ihfirst hfirst hrests
      rcases hrest with ⟨_, hsecond⟩ | ⟨_, rfl, rfl⟩
      · obtain ⟨hframe', hfurther'⟩ := ihsecond hsecond hmiddle
        exact ⟨hframe', hfurther.trans hfurther'⟩
      · exact ⟨hmiddle, hfurther⟩
  | rule name => exact h edge start hrests

/-- Every rule keeps the nodes in order. -/
theorem Rule.Reads.staysLaid {source : Bytes} {r : Rule} {frame frame' : Frame} {c c' : Cursor}
    (h : r.Reads frame c frame' c') : StaysLaid source r frame c frame' c' :=
  h.induct (StaysLaid source) fun _ _ _ _ _ hform _ _ hrests => hform.staysLaid hrests

/-- The nodes of every tree stand in order. -/
theorem Entry.parse_laid (entry : Entry) (source : Bytes) :
    (entry.parse source).Every (Node.Laid source) := by
  obtain ⟨frame, c, hread⟩ := entry.read?_isSome source
  obtain ⟨node, rfl⟩ := Entry.read?_eq_singleton hread
  have hplaced := Cursor.placed_ofSource source
  obtain ⟨hrests, _⟩ := Rule.Reads.staysLaid ⟨_, hread⟩ _ _ (.nil hplaced)
  simp only [Entry.parse, hread]
  exact hrests.nodes node List.mem_cons_self

end DotCompletion
