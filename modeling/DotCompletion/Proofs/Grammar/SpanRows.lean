import DotCompletion.Proofs.Grammar.Layout

/-!
# Rows of spans

The span of a node goes from its first child to its last, whatever there is in between. It covers
all children if they stand in a row, each behind the one before. Nodes with tokens do. Of those
without, one that stands for something missing is put behind the last token taken and one without
children in front of the next token, so that the first may follow the second.

What is known of the nodes of a frame is a `Level`. This module says what each level means and how
taking a token, missing one, or making a node of the frame changes it.
-/

namespace DotCompletion

/-! ## Nodes -/

/-- The kinds of nodes whose last token may be missing behind a child that reaches to the end of the
source. -/
def NodeKind.mayEndEarly : List NodeKind := [.classBody, .enhancedForStmt, .switchCase]

namespace Node

/-- The span of the node covers its children, and they begin one behind the other. -/
structure Nests (n : Node) : Prop where
  covers : ∀ m ∈ n.children, n.lo ≤ m.lo ∧ m.hi ≤ n.hi
  ordered : n.children.Pairwise fun a b => a.lo ≤ b.lo

instance (n : Node) : Decidable n.Nests :=
  decidable_of_iff ((∀ m ∈ n.children, n.lo ≤ m.lo ∧ m.hi ≤ n.hi) ∧
      n.children.Pairwise fun a b => a.lo ≤ b.lo)
    ⟨fun h => ⟨h.1, h.2⟩, fun h => ⟨h.covers, h.ordered⟩⟩

/-- The missing name of a reference stands in front of its empty type arguments: it is put behind
the dot, and they are put in front of what comes next. -/
def IsTorn (n : Node) : Prop :=
  n.kind = .referenceExpr ∧ ∃ front arguments name, n.children = front ++ [arguments, name] ∧
    arguments.kind = .referenceParameterList ∧ arguments.children = [] ∧ name.kind = .error ∧
      name.lo < arguments.lo

/-- The node is the body of a class, a loop over a collection or a branch of a switch, and a child
reaches to the end of the source while the node does not. -/
def EndsEarly (source : Bytes) (n : Node) : Prop :=
  n.kind ∈ NodeKind.mayEndEarly ∧ n.hi < source.length ∧ ∃ m ∈ n.children, m.hi = source.length

/-- The node nests, or it is known why not. -/
def Accounted (source : Bytes) (n : Node) : Prop := n.Nests ∨ n.IsTorn ∨ n.EndsEarly source

variable {source : Bytes} {n first last : Node} {kind : NodeKind} {error : Option Diagnostic}
  {p : Position} {row : List Node}

theorem Nests.not_isTorn (h : n.Nests) : ¬n.IsTorn := by
  rintro ⟨_, front, arguments, name, hchildren, _, _, _, hlt⟩
  have hordered := hchildren ▸ h.ordered
  have hback := (List.pairwise_append.mp hordered).2.1
  have hle := (List.pairwise_cons.mp hback).1 name (List.mem_singleton_self _)
  omega

theorem Nests.not_endsEarly (h : n.Nests) : ¬n.EndsEarly source := by
  rintro ⟨_, hlt, m, hm, hend⟩
  have hcovers := (h.covers m hm).2
  omega

theorem Accounted.nests_iff (h : n.Accounted source) :
    n.Nests ↔ ¬n.IsTorn ∧ ¬n.EndsEarly source :=
  ⟨fun hnests => ⟨hnests.not_isTorn, hnests.not_endsEarly⟩,
    fun hnot => h.resolve_right fun h => h.elim hnot.1 hnot.2⟩

theorem accounted_of_no_children (h : n.children = []) : n.Accounted source :=
  .inl ⟨by rw [h]; exact List.forall_mem_nil _, by rw [h]; exact .nil⟩

theorem lo_around_of_first (h : first ∈ row.head?) : (around kind error p row).lo = first.lo := by
  cases row with
  | nil => cases h
  | cons => cases h; rfl

theorem hi_around_of_last (h : last ∈ row.getLast?) : (around kind error p row).hi = last.hi := by
  cases row with
  | nil => cases h
  | cons first rest =>
      rw [List.getLast?_eq_some_getLast (List.cons_ne_nil first rest)] at h
      cases h
      rfl

end Node

/-! ## Rows -/

namespace Frame

/-- The nodes stand in a row, each behind the one before. -/
structure InRow (frame : Frame) : Prop where
  ordered : frame.Pairwise fun a b => a.hi ≤ b.lo
  upright : ∀ n ∈ frame, n.lo ≤ n.hi

namespace InRow

variable {frame nodes : Frame} {n : Node} {kind : NodeKind} {error : Option Diagnostic}
  {p : Position}

theorem nil : InRow [] := ⟨.nil, List.forall_mem_nil _⟩

theorem single (h : n.lo ≤ n.hi) : InRow [n] :=
  ⟨List.pairwise_singleton _ _, List.forall_mem_singleton.mpr h⟩

theorem append (h : frame.InRow) (h' : InRow nodes) {edge : Nat} (hle : ∀ n ∈ frame, n.hi ≤ edge)
    (hge : ∀ n ∈ nodes, edge ≤ n.lo) : InRow (frame ++ nodes) where
  ordered := List.pairwise_append.mpr
    ⟨h.ordered, h'.ordered, fun m hm n hn => Nat.le_trans (hle m hm) (hge n hn)⟩
  upright := List.forall_mem_append.mpr ⟨h.upright, h'.upright⟩

theorem sublist (h : frame.InRow) (hsub : nodes.Sublist frame) : InRow nodes :=
  ⟨h.ordered.sublist hsub, fun n hn => h.upright n (hsub.subset hn)⟩

/-- A node made of a row covers it. -/
theorem nests (h : frame.InRow) : (Node.around kind error p frame).Nests := by
  have hstarts : frame.Pairwise fun a b => a.lo ≤ b.lo := by
    refine h.ordered.imp_of_mem fun ha _ hab => ?_
    exact Nat.le_trans (h.upright _ ha) hab
  refine ⟨fun m hm => ?_, hstarts⟩
  have hm' : m ∈ frame := hm
  cases frame with
  | nil => cases hm'
  | cons first rest =>
      have hne := List.cons_ne_nil first rest
      constructor
      · rw [Node.lo_around_of_first (by rfl : first ∈ (first :: rest).head?)]
        rcases List.mem_cons.mp hm' with rfl | hm'
        · exact Nat.le_refl _
        · exact (List.pairwise_cons.mp hstarts).1 m hm'
      · rw [Node.hi_around_of_last (List.getLast?_eq_some_getLast hne)]
        have hsplit := List.dropLast_append_getLast hne
        have hordered := h.ordered
        rw [← hsplit] at hm' hordered
        rcases List.mem_append.mp hm' with hm' | hm'
        · have hle := (List.pairwise_append.mp hordered).2.2 m hm' _ (List.mem_singleton_self _)
          exact Nat.le_trans hle (h.upright _ (List.getLast_mem _))
        · rw [List.mem_singleton.mp hm']

theorem lo_le_hi (h : frame.InRow) :
    (Node.around kind error p frame).lo ≤ (Node.around kind error p frame).hi := by
  cases frame with
  | nil => exact Nat.le_refl _
  | cons first rest =>
      have hcovers := (h.nests : (Node.around kind error p _).Nests).covers first List.mem_cons_self
      have hupright := h.upright first List.mem_cons_self
      omega

end InRow

/-- The nodes stand in a row, and no token is to come in front of the end of one. -/
structure Aligned (frame : Frame) (c : Cursor) : Prop where
  row : frame.InRow
  le : ∀ n ∈ frame, n.hi ≤ c.behind.offset

/-- A node reaches to the next place, which lies behind the last token taken. -/
def Over (frame : Frame) (c : Cursor) : Prop :=
  c.behind.offset < c.next.lo ∧ ∃ n ∈ frame, n.hi = c.next.lo

/-- There is a first node, and it does not begin behind the last token taken. -/
def Based (frame : Frame) (c : Cursor) : Prop := ∃ first ∈ frame.head?, first.lo ≤ c.behind.offset

variable {frame nodes : Frame} {c c' : Cursor} {n : Node}

theorem Based.ne_nil (h : frame.Based c) : frame ≠ [] := by
  obtain ⟨first, hfirst, _⟩ := h
  rintro rfl
  cases hfirst

theorem Based.append (h : frame.Based c) (hbehind : c.behind.offset ≤ c'.behind.offset) :
    Based (frame ++ nodes) c' := by
  obtain ⟨first, hfirst, hle⟩ := h
  refine ⟨first, ?_, Nat.le_trans hle hbehind⟩
  rw [List.head?_append_of_ne_nil _ (Based.ne_nil ⟨first, hfirst, hle⟩)]
  exact hfirst

theorem Based.around {kind : NodeKind} {error : Option Diagnostic} {p : Position}
    (h : frame.Based c) : Based [.around kind error p frame] c := by
  obtain ⟨first, hfirst, hle⟩ := h
  exact ⟨_, rfl, by rw [Node.lo_around_of_first hfirst]; exact hle⟩

namespace Aligned

theorem nil (c : Cursor) : Aligned [] c := ⟨.nil, List.forall_mem_nil _⟩

theorem single (h : n.lo ≤ n.hi) (hle : n.hi ≤ c.behind.offset) : Aligned [n] c :=
  ⟨.single h, List.forall_mem_singleton.mpr hle⟩

theorem append (h : frame.Aligned c) (h' : Aligned nodes c')
    (hbehind : c.behind.offset ≤ c'.behind.offset) (hge : ∀ n ∈ nodes, c.behind.offset ≤ n.lo) :
    Aligned (frame ++ nodes) c' where
  row := h.row.append h'.row h.le hge
  le := List.forall_mem_append.mpr ⟨fun n hn => Nat.le_trans (h.le n hn) hbehind, h'.le⟩

theorem sublist (h : frame.Aligned c) (hsub : nodes.Sublist frame) : Aligned nodes c :=
  ⟨h.row.sublist hsub, fun n hn => h.le n (hsub.subset hn)⟩

theorem based (h : frame.Aligned c) (hne : frame ≠ []) : frame.Based c := by
  obtain ⟨first, rest, rfl⟩ := List.exists_cons_of_ne_nil hne
  refine ⟨first, rfl, ?_⟩
  exact Nat.le_trans (h.row.upright first List.mem_cons_self) (h.le first List.mem_cons_self)

/-- Nodes behind an aligned frame. -/
theorem based_append (h : frame.Aligned c) (h' : Based nodes c')
    (hbehind : c.behind.offset ≤ c'.behind.offset) : Based (frame ++ nodes) c' := by
  by_cases hnil : frame = []
  · subst hnil
    exact h'
  · exact (h.based hnil).append hbehind

end Aligned

end Frame

/-- Behind the last token stands the end of the source. -/
theorem Cursor.Placed.next_lo_eq_length {source : Bytes} {c : Cursor} (h : c.Placed source)
    (hrest : c.rest = []) : c.next.lo = source.length := by
  rw [Cursor.next, hrest, List.head?_nil, Option.getD_none, h.eof, Token.lo_endAt,
    Position.origin_advance_offset]

/-! ## Levels -/

/-- The node is an empty list of type arguments in front of the next token. -/
structure Node.IsMark (n : Node) (c : Cursor) : Prop where
  kind : n.kind = .referenceParameterList
  children : n.children = []
  lo : n.lo = c.next.lo
  hi : n.hi = c.next.lo

/-- How the nodes of a frame stand to the cursor. -/
inductive Level where
  /-- They stand in a row and end where the last token taken ends, at the latest. -/
  | aligned
  /-- Behind such nodes empty type arguments stand in front of the next token. -/
  | marked
  /-- Behind those the name is missing. -/
  | torn
  /-- The input has ended. They stand in a row, and some may reach to its end. -/
  | raised
  /-- The input has ended and the last of them does not reach to its end. They are aligned, or
  another one does reach to its end. -/
  | sunk
deriving DecidableEq, Repr

namespace Level

def Holds (frame : Frame) (c : Cursor) : Level → Prop
  | aligned => frame.Aligned c
  | marked => ∃ front arguments, frame = front ++ [arguments] ∧ Frame.Aligned front c ∧
      arguments.IsMark c
  | torn => ∃ front arguments name, frame = front ++ [arguments, name] ∧ Frame.Aligned front c ∧
      arguments.IsMark c ∧ name.kind = .error ∧ name.lo = c.behind.offset ∧
      name.hi = c.behind.offset
  | raised => c.rest = [] ∧ frame.InRow ∧
      ∀ n ∈ frame, n.hi ≤ c.behind.offset ∨ n.hi = c.next.lo
  | sunk => c.rest = [] ∧ (∃ last ∈ frame.getLast?, last.hi = c.behind.offset) ∧
      (frame.Aligned c ∨ frame.Over c)

variable {source : Bytes} {frame nodes : Frame} {c c' : Cursor} {level : Level}

/-- At the end of the input the nodes are aligned, or one of them reaches it. -/
theorem aligned_or_over (h : raised.Holds frame c ∨ sunk.Holds frame c) :
    frame.Aligned c ∨ frame.Over c := by
  rcases h with ⟨_, hrow, hends⟩ | ⟨_, _, h⟩
  · by_cases hover : frame.Over c
    · exact .inr hover
    · refine .inl ⟨hrow, fun n hn => ?_⟩
      rcases hends n hn with hle | hend
      · exact hle
      · by_contra hlt
        exact hover ⟨by omega, n, hn, hend⟩
  · exact h

theorem rest_eq_nil (h : raised.Holds frame c ∨ sunk.Holds frame c) : c.rest = [] :=
  h.elim And.left And.left

/-- An aligned frame at the end of the input. -/
theorem Holds.raise (h : aligned.Holds frame c) (hrest : c.rest = []) : raised.Holds frame c :=
  ⟨hrest, h.row, fun n hn => .inl (h.le n hn)⟩

/-- What holds of a frame at a cursor holds at another in the same place. -/
theorem Holds.congr (h : level.Holds frame c) (hbehind : c'.behind = c.behind)
    (hnext : c'.next.lo = c.next.lo) (hrest : c.rest = [] → c'.rest = []) :
    level.Holds frame c' := by
  have haligned : ∀ {frame : Frame}, frame.Aligned c → frame.Aligned c' :=
    fun h => ⟨h.row, by rw [hbehind]; exact h.le⟩
  have hmark : ∀ {n : Node}, n.IsMark c → n.IsMark c' :=
    fun h => ⟨h.kind, h.children, by rw [hnext, h.lo], by rw [hnext, h.hi]⟩
  cases level with
  | aligned => exact haligned h
  | marked =>
      obtain ⟨front, arguments, rfl, hfront, hmarks⟩ := h
      exact ⟨front, arguments, rfl, haligned hfront, hmark hmarks⟩
  | torn =>
      obtain ⟨front, arguments, name, rfl, hfront, hmarks, hname⟩ := h
      exact ⟨front, arguments, name, rfl, haligned hfront, hmark hmarks,
        by rw [hbehind]; exact hname⟩
  | raised => exact ⟨hrest h.1, h.2.1, by rw [hbehind, hnext]; exact h.2.2⟩
  | sunk =>
      obtain ⟨hend, hlast, h⟩ := h
      refine ⟨hrest hend, by rw [hbehind]; exact hlast, h.imp haligned fun hover => ?_⟩
      rw [Frame.Over, hbehind, hnext]
      exact hover

/-! ### Making nodes without others -/

/-- The nodes stand in a row in front of the next place. -/
theorem Holds.in_front (h : level.Holds frame c) (hplaced : c.Placed source)
    (hlevel : level = .aligned ∨ level = .marked ∨ level = .raised) :
    frame.InRow ∧ ∀ n ∈ frame, n.hi ≤ c.next.lo := by
  have hbehind := hplaced.behind_le
  rcases hlevel with rfl | rfl | rfl
  · exact ⟨h.row, fun n hn => Nat.le_trans (h.le n hn) hbehind⟩
  · obtain ⟨front, arguments, rfl, hfront, hmark⟩ := h
    refine ⟨hfront.row.append (.single ?_) hfront.le (List.forall_mem_singleton.mpr ?_),
      List.forall_mem_append.mpr ⟨fun n hn => Nat.le_trans (hfront.le n hn) hbehind,
        List.forall_mem_singleton.mpr (Nat.le_of_eq hmark.hi)⟩⟩
    · rw [hmark.lo, hmark.hi]
    · rw [hmark.lo]
      exact hbehind
  · refine ⟨h.2.1, fun n hn => ?_⟩
    rcases h.2.2 n hn with hle | hend
    · exact Nat.le_trans hle hbehind
    · exact Nat.le_of_eq hend

/-- A token is taken. -/
theorem Holds.leaf (h : level.Holds frame c) (hplaced : c.Placed source) (hrest : c.rest ≠ [])
    (hlevel : level = .aligned ∨ level = .marked) (kind : NodeKind) :
    aligned.Holds (frame ++ [Node.leaf kind c.next]) c.advance := by
  obtain ⟨hrow, hle⟩ := h.in_front hplaced (hlevel.imp_right .inl)
  obtain ⟨_, hfurther, hmoved⟩ := hplaced.advance
  have hhi : c.next.hi = c.advance.behind.offset := by rw [(hmoved hrest).1]; rfl
  have hupright : c.next.lo ≤ c.next.hi := by rw [hplaced.next_stands.hi_eq]; omega
  refine ⟨hrow.append (.single hupright) hle (List.forall_mem_singleton.mpr (Nat.le_refl _)),
    List.forall_mem_append.mpr ⟨fun n hn => ?_,
      List.forall_mem_singleton.mpr (Nat.le_of_eq hhi)⟩⟩
  have hn := hle n hn
  omega

/-- A leaf is made of the end of the input. -/
theorem Holds.leaf_end (h : level.Holds frame c) (hplaced : c.Placed source) (hrest : c.rest = [])
    (hlevel : level = .aligned ∨ level = .raised) (kind : NodeKind) :
    raised.Holds (frame ++ [Node.leaf kind c.next]) c.advance := by
  obtain ⟨hrow, hle⟩ := h.in_front hplaced (hlevel.imp_right .inr)
  have hsame : c.advance = c := by rw [Cursor.advance, hrest]
  have hnext : c.next.hi = c.next.lo := by
    rw [Cursor.next, hrest, List.head?_nil, Option.getD_none, hplaced.eof]
    rfl
  have hraised : raised.Holds frame c := by
    rcases hlevel with rfl | rfl
    · exact h.raise hrest
    · exact h
  rw [hsame]
  refine ⟨hrest, hrow.append (.single (Nat.le_of_eq hnext.symm)) hle
    (List.forall_mem_singleton.mpr (Nat.le_refl _)), List.forall_mem_append.mpr ⟨hraised.2.2,
      List.forall_mem_singleton.mpr (.inr hnext)⟩⟩

/-- A token is missing. -/
theorem Holds.missing (h : aligned.Holds frame c) (d : Diagnostic) :
    aligned.Holds (frame ++ [Node.missing c.behind d]) c :=
  h.append (.single (Nat.le_refl _) (Nat.le_refl _)) (Nat.le_refl _)
    (List.forall_mem_singleton.mpr (Nat.le_refl _))

theorem Holds.missing_torn (h : marked.Holds frame c) (d : Diagnostic) :
    torn.Holds (frame ++ [Node.missing c.behind d]) c := by
  obtain ⟨front, arguments, rfl, hfront, hmark⟩ := h
  exact ⟨front, arguments, _, List.append_assoc _ _ _, hfront, hmark, rfl, rfl, rfl⟩

theorem Holds.missing_sunk (h : raised.Holds frame c ∨ sunk.Holds frame c) (d : Diagnostic) :
    sunk.Holds (frame ++ [Node.missing c.behind d]) c := by
  refine ⟨rest_eq_nil h, ⟨_, List.getLast?_concat, rfl⟩, (aligned_or_over h).imp ?_ ?_⟩
  · exact fun haligned => Holds.missing haligned d
  · exact fun ⟨hlt, n, hn, hend⟩ => ⟨hlt, n, List.mem_append_left _ hn, hend⟩

/-- Empty type arguments are made. -/
theorem Holds.mark (h : aligned.Holds frame c) (error : Option Diagnostic) :
    marked.Holds (frame ++ [Node.around .referenceParameterList error c.next.span.start []]) c :=
  ⟨frame, _, rfl, h, ⟨rfl, rfl, rfl, rfl⟩⟩

/-! ### Making a node of the frame -/

section Around

variable {kind : NodeKind} {error : Option Diagnostic} {p : Position}

/-- A node made of the frame nests, or it is known why not. -/
theorem Holds.accounted (h : level.Holds frame c) (hplaced : c.Placed source)
    (htorn : level = .torn → kind = .referenceExpr)
    (hsunk : level = .sunk → kind ∈ NodeKind.mayEndEarly) :
    (Node.around kind error p frame).Accounted source := by
  cases level with
  | aligned => exact .inl (h.in_front hplaced (.inl rfl)).1.nests
  | marked => exact .inl (h.in_front hplaced (.inr (.inl rfl))).1.nests
  | raised => exact .inl (h.in_front hplaced (.inr (.inr rfl))).1.nests
  | torn =>
      obtain ⟨front, arguments, name, rfl, hfront, hmark, hname, hlo, hhi⟩ := h
      by_cases hlt : name.lo < arguments.lo
      · exact .inr (.inl ⟨htorn rfl, front, arguments, name, rfl, hmark.kind, hmark.children,
          hname, hlt⟩)
      · -- the next token stands right behind the last one
        have hmarked : marked.Holds (front ++ [arguments]) c :=
          ⟨front, arguments, rfl, hfront, hmark⟩
        obtain ⟨hrow, hle⟩ := hmarked.in_front hplaced (.inr (.inl rfl))
        have hsame : c.next.lo ≤ name.lo := by
          have hlo := hmark.lo
          omega
        have happend := hrow.append (.single (by rw [hlo, hhi])) hle
          (List.forall_mem_singleton.mpr hsame)
        rw [List.append_assoc] at happend
        exact .inl happend.nests
  | sunk =>
      rcases aligned_or_over (.inr h) with haligned | ⟨hlt, n, hn, hend⟩
      · exact .inl haligned.row.nests
      · obtain ⟨hrest, ⟨last, hlast, hlo⟩, _⟩ := h
        have hlength := hplaced.next_lo_eq_length hrest
        refine .inr (.inr ⟨hsunk rfl, ?_, n, hn, hend.trans hlength⟩)
        rw [Node.hi_around_of_last hlast, hlo, ← hlength]
        exact hlt

/-- The node does not begin behind its last child, and that does not end behind the last token
taken. -/
theorem Holds.around (h : level.Holds frame c) (hbased : frame.Based c)
    (hlevel : level = .aligned ∨ level = .torn ∨ level = .sunk) :
    aligned.Holds [.around kind error p frame] c := by
  obtain ⟨first, hfirst, hle⟩ := hbased
  rcases hlevel with rfl | rfl | rfl
  · have hlast := List.getLast?_eq_some_getLast (Frame.Based.ne_nil ⟨first, hfirst, hle⟩)
    refine .single h.row.lo_le_hi ?_
    rw [Node.hi_around_of_last hlast]
    exact h.le _ (List.getLast_mem _)
  · obtain ⟨front, arguments, name, rfl, _, _, _, _, hhi⟩ := h
    have hlast : name ∈ (front ++ [arguments, name]).getLast? := by simp
    refine .single ?_ ?_
    · rw [Node.lo_around_of_first hfirst, Node.hi_around_of_last hlast, hhi]
      exact hle
    · rw [Node.hi_around_of_last hlast, hhi]
  · obtain ⟨_, ⟨last, hlast, hend⟩, _⟩ := h
    refine .single ?_ ?_
    · rw [Node.lo_around_of_first hfirst, Node.hi_around_of_last hlast, hend]
      exact hle
    · rw [Node.hi_around_of_last hlast, hend]

/-- Without children the node stands at the end of the input. -/
theorem Holds.around_end (h : raised.Holds frame c) (hp : frame = [] → p.offset = c.next.lo) :
    raised.Holds [.around kind error p frame] c := by
  obtain ⟨hrest, hrow, hends⟩ := h
  refine ⟨hrest, .single hrow.lo_le_hi, List.forall_mem_singleton.mpr ?_⟩
  by_cases hnil : frame = []
  · subst hnil
    exact .inr (hp rfl)
  · rw [Node.hi_around_of_last (List.getLast?_eq_some_getLast hnil)]
    exact hends _ (List.getLast_mem hnil)

end Around

/-! ### Putting nodes behind the frame -/

/-- Nodes are put behind an aligned frame. -/
theorem Holds.append (h : aligned.Holds frame c) (h' : level.Holds nodes c')
    (hlevel : level = .aligned ∨ level = .raised ∨ level = .sunk)
    (hbehind : c.behind.offset ≤ c'.behind.offset) (hge : ∀ n ∈ nodes, c.behind.offset ≤ n.lo) :
    level.Holds (frame ++ nodes) c' := by
  rcases hlevel with rfl | rfl | rfl
  · exact Frame.Aligned.append h h' hbehind hge
  · obtain ⟨hrest, hrow, hends⟩ := h'
    exact ⟨hrest, h.row.append hrow h.le hge,
      List.forall_mem_append.mpr ⟨fun n hn => .inl (Nat.le_trans (h.le n hn) hbehind), hends⟩⟩
  · obtain ⟨hrest, ⟨last, hlast, hend⟩, hover⟩ := h'
    refine ⟨hrest, ⟨last, ?_, hend⟩, hover.imp ?_ ?_⟩
    · exact List.mem_getLast?_append_of_mem_getLast? hlast
    · exact fun haligned => Frame.Aligned.append h haligned hbehind hge
    · exact fun ⟨hlt, n, hn, hend⟩ => ⟨hlt, n, List.mem_append_right _ hn, hend⟩

/-- Nodes are put behind a frame that may reach to the end of the input. -/
theorem Holds.append_end (h : raised.Holds frame c ∨ sunk.Holds frame c)
    (h' : (aligned.Holds nodes c' ∧ nodes ≠ []) ∨ sunk.Holds nodes c')
    (hrest : c'.rest = []) (hbehind : c'.behind = c.behind) (hnext : c'.next.lo = c.next.lo)
    (hge : ∀ n ∈ nodes, c.behind.offset ≤ n.lo ∧ c.behind.offset ≤ n.hi) :
    sunk.Holds (frame ++ nodes) c' := by
  have hends : ∃ last ∈ nodes.getLast?, last.hi = c'.behind.offset := by
    rcases h' with ⟨haligned, hne⟩ | ⟨_, hlast, _⟩
    · have hmem := List.getLast_mem hne
      refine ⟨_, List.getLast?_eq_some_getLast hne, Nat.le_antisymm (haligned.le _ hmem) ?_⟩
      rw [hbehind]
      exact (hge _ hmem).2
    · exact hlast
  obtain ⟨last, hlast, hend⟩ := hends
  refine ⟨hrest, ⟨last, List.mem_getLast?_append_of_mem_getLast? hlast, hend⟩, ?_⟩
  have hback : Frame.Aligned nodes c' ∨ Frame.Over nodes c' :=
    h'.elim (fun h' => .inl h'.1) fun h' => h'.2.2
  rcases aligned_or_over h with hfront | ⟨hlt, n, hn, hend⟩
  · refine hback.imp (fun hback => hfront.append hback (Nat.le_of_eq (by rw [hbehind])) ?_) ?_
    · exact fun n hn => (hge n hn).1
    · exact fun ⟨hlt, n, hn, hend⟩ => ⟨hlt, n, List.mem_append_right _ hn, hend⟩
  · exact .inr ⟨by rw [hbehind, hnext]; exact hlt, n, List.mem_append_left _ hn,
      by rw [hnext]; exact hend⟩

end Level

end DotCompletion
