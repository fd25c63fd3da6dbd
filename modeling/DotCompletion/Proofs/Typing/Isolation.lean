import DotCompletion.Proofs.Grammar.TypeParts
import DotCompletion.Proofs.Tree.Exchange
import DotCompletion.Proofs.Typing.Shelter

/-!
# Types apart from code elsewhere

What stands behind an expression in a block has nothing to do with its type, however it is
written. The branches of an `if` statement are not as far apart: the search for the
variables of tests goes through all that stands in front of a branch, so that tests inside
the other branch count as well.
-/

namespace DotCompletion

namespace Tree

open Node (Numbered)

variable {source source' : Bytes} {root root' n : Node} {id i c : Nat} {above : List (Nat × Node)}

theorem previous?_of_children {front back : List Nat}
    (h : (ofNode source (some root)).children id = front ++ c :: back) :
    (ofNode source (some root)).previous? c = front.getLast? := by
  obtain ⟨n, above, row, m, rest, hn, hrow, rfl, rfl, -⟩ := exists_split h
  exact previous?_eq hn hrow

theorem text_eq (h : Numbered root id n above) :
    (ofNode source (some root)).text id = n.textIn source := by
  rw [text, span?_eq h]
  rfl

theorem mem_foldr {P : Prop} {g : Nat → List Nat → List Nat} {l : List Nat}
    (h : ∀ c ∈ l, ∀ behind, i ∈ g c behind → P ∨ i ∈ behind) {behind : List Nat}
    (hi : i ∈ l.foldr g behind) : P ∨ i ∈ behind := by
  induction l with
  | nil => exact .inr hi
  | cons c l ih =>
      obtain ⟨hc, hl⟩ := List.forall_mem_cons.mp h
      exact (hc _ hi).elim .inl (ih hl)

/-- A walk lists a node and what is below it. -/
theorem mem_walkTo {t : Tree} {enter : NodeKind → Bool} {levels : Nat} {behind : List Nat}
    (h : i ∈ t.walkTo enter levels id behind) : (i = id ∨ t.Below id i) ∨ i ∈ behind := by
  induction levels generalizing id behind with
  | zero => exact .inr h
  | succ levels ih =>
      rw [walkTo] at h
      split at h
      next => exact .inr h
      next =>
          rcases List.mem_cons.mp h with rfl | h
          · exact .inl (.inl rfl)
          · split at h
            next =>
                refine mem_foldr (fun c hc behind hi => (ih hi).imp_left fun hi => .inr ?_) h
                rcases hi with rfl | hi
                · exact .single hc
                · exact .head hc hi
            next => exact .inr h

/-- Where nothing is tested, nothing is said of any name. -/
theorem patternBinding?_eq_none {t : Tree} {name : Bytes}
    (h : ∀ j ∈ t.walk (fun _ => true) id, t.isA .instanceofExpr j = false) :
    t.patternBinding? id name = none := by
  rw [patternBinding?, List.findSome?_eq_none_iff]
  intro j hj
  rw [h j hj]
  rfl

end Tree

namespace Exchange

open Node (Numbered)
open DotCompletion.Tree (ofNode)

variable {x : Exchange} {source source' : Bytes} {root root' n : Node} {id i c : Nat}
  {above : List (Nat × Node)}

/-- A node of the tree that stays. -/
def Kept (x : Exchange) (root : Node) (id : Nat) : Prop :=
  x.Stays id ∧ ∃ n above, Numbered root id n above

/-- A node of the tree that stays with all below it. -/
def Whole (x : Exchange) (root : Node) (id : Nat) : Prop :=
  ∃ n above, Numbered root id n above ∧ x.Apart id n

theorem Apart.stays (h : x.Apart id n) : x.Stays id := by
  have hpos := n.size_pos
  unfold Apart at h
  unfold Stays
  omega

theorem Whole.kept (h : x.Whole root id) : x.Kept root id := by
  obtain ⟨n, above, hn, hapart⟩ := h
  exact ⟨hapart.stays, n, above, hn⟩

theorem Whole.child (h : x.Whole root id) (hc : c ∈ (ofNode source (some root)).children id) :
    x.Whole root c := by
  obtain ⟨n, above, hn, hapart⟩ := h
  obtain ⟨front, m, back, hsplit, rfl, hm⟩ := Tree.exists_child hn hc
  exact ⟨m, _, hm, hapart.child hsplit⟩

theorem Whole.below (h : x.Whole root id) (hi : (ofNode source (some root)).Below id i) :
    x.Whole root i := by
  induction hi with
  | single hc => exact h.child hc
  | tail _ hc ih => exact ih.child hc

/-- Nodes that hold no node like the spot stay with all below them if they stay at all. -/
theorem Stands.apart_of_every {n' : Node} (h : x.Stands source source' id n n')
    (hn : Numbered root id n above) {P : Node → Prop} (hP : n.Every P)
    (hspot : ∀ m above, Numbered root x.spot m above → ¬P m) : x.Apart id n := by
  rcases h with ⟨hapart, -⟩ | ⟨h⟩
  · exact hapart
  · obtain ⟨m, _, _, hm, -, hm'⟩ := h.exists_spot hn hP
    exact absurd hm' (hspot m _ hm)

/-- A node that stays has the children that its counterpart has. -/
theorem Kept.children (hroot : x.Leads source source' 0 root root') (h : x.Kept root id)
    (hspot : id ≠ x.spot) :
    (ofNode source' (some root')).children (x.move id) =
      ((ofNode source (some root)).children id).map x.move := by
  obtain ⟨hstays, n, above, hn⟩ := h
  obtain ⟨n', above', hn', hstands, -⟩ := counterpart hroot hn hstays
  rw [Tree.children_eq hn, Tree.children_eq hn', hstands.numbers hspot]

theorem Kept.child (hroot : x.Leads source source' 0 root root') (h : x.Kept root id)
    (hspot : id ≠ x.spot) (hc : c ∈ (ofNode source (some root)).children id) :
    x.Kept root c := by
  obtain ⟨hstays, n, above, hn⟩ := h
  obtain ⟨n', above', hn', hstands, -⟩ := counterpart hroot hn hstays
  obtain ⟨front, m, back, hsplit, rfl, hm⟩ := Tree.exists_child hn hc
  obtain ⟨hspot', -⟩ | ⟨_, _, _, -, -, hchild⟩ := hstands.child hsplit
  · exact absurd hspot' hspot
  · exact ⟨hchild.stays, m, _, hm⟩

theorem Kept.before (hroot : x.Leads source source' 0 root root') (h : x.Kept root id)
    (hspot : id ≠ x.spot) (hc : c ∈ (ofNode source (some root)).children id) :
    (ofNode source' (some root')).before (x.move c) =
        ((ofNode source (some root)).before c).map x.move ∧
      (ofNode source' (some root')).previous? (x.move c) =
        ((ofNode source (some root)).previous? c).map x.move := by
  obtain ⟨front, back, hchildren⟩ := List.append_of_mem hc
  have hchildren' := h.children hroot hspot
  rw [hchildren, List.map_append, List.map_cons] at hchildren'
  rw [Tree.before_of_children hchildren, Tree.before_of_children hchildren',
    Tree.previous?_of_children hchildren, Tree.previous?_of_children hchildren',
    List.map_reverse, List.getLast?_map]
  exact ⟨rfl, rfl⟩

theorem Kept.ancestor (hroot : x.Leads source source' 0 root root') (h : x.Kept root id)
    (hi : i ∈ (ofNode source (some root)).ancestors id) : x.Kept root i := by
  obtain ⟨hstays, n, above, hn⟩ := h
  obtain ⟨_, _, -, -, -, habove⟩ := counterpart hroot hn hstays
  rw [Tree.ancestors_eq hn] at hi
  refine ⟨habove i hi, ?_⟩
  obtain ⟨⟨_, m⟩, hm, rfl⟩ := List.mem_map.mp hi
  obtain ⟨inner, outer, hsplit⟩ := List.append_of_mem hm
  exact ⟨m, outer, hn.outer hsplit⟩

/-- A node of some kind is made of what such a node is made of. -/
theorem every_of_isA {P : Node → Prop} {kind : NodeKind} (hroot : root.Every P)
    (h : (ofNode source (some root)).isA kind id = true) (hn : Numbered root id n above) :
    n.kind = kind ∧ n.Every P := by
  rw [Tree.isA_eq hn, beq_iff_eq] at h
  exact ⟨h, hn.every hroot⟩

/-- What stays in front of and behind an exchange below a block or an `if` statement is shared by
the two trees. -/
def sharing (hroot : x.Leads source source' 0 root root') (hwritten : root.Every Node.Written)
    (hspot : ∀ n above, Numbered root x.spot n above → n.kind = .block ∨ n.kind = .ifStmt) :
    (ofNode source (some root)).Sharing (ofNode source' (some root')) where
  Kept := x.Kept root
  Whole := x.Whole root
  move := x.move
  spot := x.spot
  spot_kind := by
    intro kind hkind
    obtain ⟨slot, hslot, rfl⟩ := Option.map_eq_some_iff.mp hkind
    obtain ⟨n, above, hn⟩ := Tree.exists_numbered hslot
    rw [Tree.kind?_eq hn, Option.some.injEq] at hkind
    exact hkind ▸ hspot n above hn
  injective := fun hi hj => move_injective hi.1 hj.1
  kept := Whole.kept
  ne_spot := by
    rintro i ⟨n, above, hn, hapart⟩
    have hpos := n.size_pos
    unfold Apart at hapart
    omega
  kind := by
    rintro i ⟨hstays, n, above, hn⟩
    obtain ⟨n', above', hn', hstands, -⟩ := counterpart hroot hn hstays
    rw [Tree.kind?_eq hn, Tree.kind?_eq hn']
    exact congrArg (some ·.1) hstands.face.symm
  lexeme := by
    rintro i ⟨hstays, n, above, hn⟩
    obtain ⟨n', above', hn', hstands, -⟩ := counterpart hroot hn hstays
    rw [Tree.token?_eq hn, Tree.token?_eq hn']
    exact (congrArg Prod.snd hstands.face).symm
  text := by
    rintro i ⟨n, above, hn, hapart⟩
    obtain ⟨n', above', hn', hstands, -⟩ := counterpart hroot hn hapart.stays
    rw [Tree.text_eq hn, Tree.text_eq hn', (Node.alike_iff.mp (hstands.alike hapart)).1.2]
  word := by
    rintro i ⟨hstays, n, above, hn⟩ hkind
    obtain ⟨n', above', hn', hstands, -⟩ := counterpart hroot hn hstays
    obtain ⟨hkind, hevery⟩ := every_of_isA hwritten hkind hn
    refine ⟨n, above, hn, hstands.apart_of_every hn (P := fun m => m.kind = .identifier) ?_ ?_⟩
    · refine .intro hkind fun m hm => ?_
      rw [hevery.own.1 hkind] at hm
      cases hm
    · intro m above hm hkind
      rcases hspot m above hm with heq | heq
      · cases heq.symm.trans hkind
      · cases heq.symm.trans hkind
  type := by
    rintro i ⟨hstays, n, above, hn⟩ hkind
    obtain ⟨n', above', hn', hstands, -⟩ := counterpart hroot hn hstays
    obtain ⟨hkind, hevery⟩ := every_of_isA hwritten hkind hn
    refine ⟨n, above, hn, hstands.apart_of_every hn (hevery.own.2 hkind) ?_⟩
    intro m above hm hpart
    have hkind := hpart.1
    rcases hspot m above hm with heq | heq
    · rw [heq] at hkind
      cases hkind
    · rw [heq] at hkind
      cases hkind
  children := fun h hspot => h.children hroot hspot
  kept_child := fun h hspot hc => h.child hroot hspot hc
  whole_child := fun h hc => h.child hc
  firstChild := by
    intro i h hspot
    rw [← Tree.head?_children, ← Tree.head?_children, h.children hroot hspot, List.head?_map]
  lastChild := by
    intro i h hspot
    rw [← Tree.getLast?_children, ← Tree.getLast?_children, h.children hroot hspot,
      List.getLast?_map]
  mem_firstChild := Tree.mem_children_of_firstChild?
  mem_lastChild := Tree.mem_children_of_lastChild?
  previous := fun h hspot hc => (h.before hroot hspot hc).2
  kept_previous := by
    intro i c p h hspot hc hp
    obtain ⟨front, back, hchildren⟩ := List.append_of_mem hc
    rw [Tree.previous?_of_children hchildren] at hp
    refine h.child hroot hspot ?_
    rw [hchildren]
    exact List.mem_append_left _ (List.mem_of_getLast? hp)
  before := fun h hspot hc => (h.before hroot hspot hc).1
  parent := by
    rintro i ⟨hstays, n, above, hn⟩
    obtain ⟨n', above', hn', -, habove, -⟩ := counterpart hroot hn hstays
    rw [Tree.parent?_eq hn, Tree.parent?_eq hn', ← List.head?_map, ← List.head?_map, habove,
      List.head?_map]
  kept_parent := by
    intro i a h hparent
    obtain ⟨n, above, hn⟩ := h.2
    refine h.ancestor hroot ?_
    rw [Tree.parent?_eq hn, ← List.head?_map] at hparent
    rw [Tree.ancestors_eq hn]
    exact List.mem_of_head? hparent
  ancestors := by
    rintro i ⟨hstays, n, above, hn⟩
    obtain ⟨n', above', hn', -, habove, -⟩ := counterpart hroot hn hstays
    rw [Tree.ancestors_eq hn, Tree.ancestors_eq hn', habove]
  kept_ancestor := fun h ha => h.ancestor hroot ha
  walk := by
    rintro i enter ⟨n, above, hn, hapart⟩
    obtain ⟨n', above', hn', hstands, -⟩ := counterpart hroot hn hapart.stays
    have halike := hstands.alike hapart
    have hle := hn.add_size_le
    have hle' := hn'.add_size_le
    rw [Node.size_of_alike halike] at hle'
    exact walkTo_eq hn hn' hapart halike enter (by rw [Tree.size_ofNode]; omega)
      (by rw [Tree.size_ofNode]; omega) []
  kept_walk := by
    intro i j enter h hj
    rcases Tree.mem_walkTo hj with (rfl | hj) | hj
    · exact h
    · exact h.below hj
    · cases hj

/-! ## Scopes around the exchange -/

/-- What is around a node or the node itself leads to it. -/
theorem spot_range {c : Nat} {m : Node} (hm : Numbered root c m above)
    (hleads : c = x.spot ∨ (ofNode source (some root)).Below c x.spot) :
    c ≤ x.spot ∧ x.spot < c + m.size := by
  have hpos := m.size_pos
  rcases hleads with rfl | hbelow
  · omega
  · rw [Tree.below_iff_isAncestor, Tree.isAncestor_iff, hm.sizeAt] at hbelow
    omega

/-- The children beside the one that leads to the exchange stand apart. -/
theorem whole_of_ne (hroot : x.Leads source source' 0 root root') {b : Nat}
    (hc : c ∈ (ofNode source (some root)).children id) (hspot : id ≠ x.spot)
    (hleads : c = x.spot ∨ (ofNode source (some root)).Below c x.spot)
    (hb : b ∈ (ofNode source (some root)).children id) (hne : b ≠ c) : x.Whole root b := by
  obtain ⟨n, above, hn⟩ := Tree.exists_of_mem_children hc
  obtain ⟨front, m, back, hsplit, rfl, hm⟩ := Tree.exists_child hn hc
  obtain ⟨front', m', back', hsplit', rfl, hm'⟩ := Tree.exists_child hn hb
  have hbounds := hroot.bounds.1
  have hrange := spot_range hm hleads
  obtain ⟨_, _, -, hstands, -⟩ := counterpart hroot hn (.inl (by omega))
  obtain ⟨heq, -⟩ | ⟨_, _, _, -, -, hchild⟩ := hstands.child hsplit'
  · exact absurd heq hspot
  · rcases hchild with ⟨hapart, -⟩ | ⟨hleads'⟩
    · exact ⟨m', _, hm', hapart⟩
    · have hbounds' := hleads'.bounds.1
      have hapart := Node.apart_of_split (hsplit.symm.trans hsplit')
      omega

theorem lt_of_mem_before {b : Nat} (hc : c ∈ (ofNode source (some root)).children id)
    (hb : b ∈ (ofNode source (some root)).before c) : b < c := by
  obtain ⟨front, back, hchildren⟩ := List.append_of_mem hc
  rw [Tree.before_of_children hchildren, List.mem_reverse] at hb
  obtain ⟨n, above, row, m, rest, hn, hrow, rfl, rfl, -⟩ := Tree.exists_split hchildren
  exact (Node.le_of_mem_numbers hb).2

/-- The spot and its counterpart. -/
theorem Leads.spot (hroot : x.Leads source source' 0 root root') :
    ∃ n n' above above', Numbered root x.spot n above ∧ Numbered root' x.spot n' above' ∧
      x.Leads source source' x.spot n n' := by
  have hbounds := hroot.bounds.1
  obtain ⟨n, _, inner, hn, -⟩ := hroot.exists_spot .root (.of_forall root fun _ => trivial)
  obtain ⟨n', above', hn', hstands, -⟩ := counterpart hroot hn (.inl hbounds.2.1)
  rw [move_of_lt hbounds.2.1] at hn'
  rcases hstands with ⟨hapart, -⟩ | ⟨hleads⟩
  · have hpos := n.size_pos
    unfold Apart at hapart
    omega
  · exact ⟨n, n', _, above', hn, hn', hleads⟩

theorem kept_spot (hroot : x.Leads source source' 0 root root') : x.Kept root x.spot := by
  obtain ⟨n, _, above, _, hn, -⟩ := hroot.spot
  exact ⟨.inl hroot.bounds.1.2.1, n, above, hn⟩

/-- The children of the spot that stay stand apart. -/
theorem whole_of_stays (hroot : x.Leads source source' 0 root root')
    (hc : c ∈ (ofNode source (some root)).children x.spot) (hstays : x.Stays c) :
    x.Whole root c := by
  obtain ⟨n, n', above, above', hn, hn', hleads⟩ := hroot.spot
  obtain ⟨front, m, back, hsplit, rfl, hm⟩ := Tree.exists_child hn hc
  have hpos := m.size_pos
  unfold Stays at hstays
  obtain ⟨-, hgone⟩ | ⟨_, _, _, -, -, ⟨hapart, -⟩ | ⟨hleads'⟩⟩ := (Stands.leads hleads).child hsplit
  · omega
  · exact ⟨m, _, hm, hapart⟩
  · have hbounds := hleads'.bounds.1
    omega

/-- The children of the spot that go. -/
def going (x : Exchange) (t : Tree) : List Nat :=
  (t.children x.spot).filter fun c => x.start ≤ c && c < x.start + x.gone

/-- The children of the spot that come. -/
def coming (x : Exchange) (u : Tree) : List Nat :=
  (u.children x.spot).filter fun c => x.start ≤ c && c < x.start + x.come

theorem filter_row {front row back : List Nat} {start count : Nat}
    (hfront : ∀ i ∈ front, i < start) (hrow : ∀ i ∈ row, start ≤ i ∧ i < start + count)
    (hback : ∀ i ∈ back, start + count ≤ i) :
    (front ++ (row ++ back)).filter (fun c => start ≤ c && c < start + count) = row := by
  have hfront : front.filter (fun c => start ≤ c && c < start + count) = [] := by
    rw [List.filter_eq_nil_iff]
    intro i hi
    have hlt := hfront i hi
    simp only [Bool.and_eq_true, decide_eq_true_eq]
    omega
  have hback : back.filter (fun c => start ≤ c && c < start + count) = [] := by
    rw [List.filter_eq_nil_iff]
    intro i hi
    have hle := hback i hi
    simp only [Bool.and_eq_true, decide_eq_true_eq]
    omega
  have hrow : row.filter (fun c => start ≤ c && c < start + count) = row := by
    rw [List.filter_eq_self]
    intro i hi
    simpa using hrow i hi
  rw [List.filter_append, List.filter_append, hfront, hback, hrow, List.nil_append,
    List.append_nil]

/-- The children of the spot in both trees. -/
theorem children_spot (hroot : x.Leads source source' 0 root root') :
    ∃ front back,
      (ofNode source (some root)).children x.spot =
        front ++ (x.going (ofNode source (some root)) ++ back) ∧
      (ofNode source' (some root')).children x.spot =
        front.map x.move ++ (x.coming (ofNode source' (some root')) ++ back.map x.move) ∧
      (∀ i ∈ front, i < x.start) ∧ ∀ i ∈ back, x.start + x.gone ≤ i := by
  obtain ⟨n, n', above, above', hn, hn', hleads⟩ := hroot.spot
  obtain ⟨front, old, new, back, hold, hnew, hfront, hgone, hcome, hback⟩ := hleads.numbers
  have hold : (ofNode source (some root)).children x.spot = front ++ (old ++ back) :=
    (Tree.children_eq hn).trans hold
  have hnew : (ofNode source' (some root')).children x.spot =
      front.map x.move ++ (new ++ back.map x.move) := (Tree.children_eq hn').trans hnew
  have hfront' : ∀ i ∈ front.map x.move, i < x.start := by
    intro i hi
    obtain ⟨j, hj, rfl⟩ := List.mem_map.mp hi
    rw [move_of_lt (hfront j hj)]
    exact hfront j hj
  have hback' : ∀ i ∈ back.map x.move, x.start + x.come ≤ i := by
    intro i hi
    obtain ⟨j, hj, rfl⟩ := List.mem_map.mp hi
    have hge := hback j hj
    rw [move_of_le hge]
    omega
  have hgoing : x.going (ofNode source (some root)) = old := by
    rw [going, hold, filter_row hfront hgone hback]
  have hcoming : x.coming (ofNode source' (some root')) = new := by
    rw [coming, hnew, filter_row hfront' hcome hback']
  exact ⟨front, back, by rw [hgoing, hold], by rw [hcoming, hnew], hfront, hback⟩

theorem of_mem_going {t : Tree} (h : i ∈ x.going t) : x.start ≤ i ∧ i < x.start + x.gone := by
  simpa using List.of_mem_filter h

variable {hroot : x.Leads source source' 0 root root'} {hwritten : root.Every Node.Written}
  {hspot : ∀ n above, Numbered root x.spot n above → n.kind = .block ∨ n.kind = .ifStmt}

/-- What the scopes around the spot tell does not depend on the exchange. -/
theorem told_outside {p : Nat × Nat}
    (hp : p ∈ (x.spot :: (ofNode source (some root)).ancestors x.spot).zip
      ((ofNode source (some root)).ancestors x.spot)) :
    (x.sharing hroot hwritten hspot).Told p.1 p.2 := by
  obtain ⟨hchild, hscope⟩ := List.of_mem_zip hp
  have hleads : p.1 = x.spot ∨ (ofNode source (some root)).Below p.1 x.spot := by
    rcases List.mem_cons.mp hchild with heq | hmem
    · exact .inl heq
    · exact .inr (Tree.below_iff_isAncestor.mpr (List.contains_iff_mem.mpr hmem))
  obtain ⟨hlt, -⟩ := Tree.isAncestor_iff.mp (List.contains_iff_mem.mpr hscope)
  obtain ⟨n, _, above, _, hn, -⟩ := hroot.spot
  obtain ⟨hmem, -⟩ := Tree.scopes_of_scope hn hp
  have hne : p.2 ≠ x.spot := Nat.ne_of_lt hlt
  have hkept := (kept_spot hroot).ancestor hroot hscope
  by_cases hleader : (ofNode source (some root)).leader? p.2 = some p.1
  · exact .leader hleader
  · refine .ahead (fun l hl => ?_) ⟨(hkept.before hroot hne hmem).1, fun b hb => ?_⟩
    · refine whole_of_ne hroot hmem hne hleads (Tree.mem_children_of_leader? hl) ?_
      rintro rfl
      exact hleader hl
    · exact whole_of_ne hroot hmem hne hleads (Tree.mem_children_of_mem_before hmem hb)
        (Nat.ne_of_lt (lt_of_mem_before hmem hb))

/-- What a child of the spot is told in front of the exchange does not depend on it. -/
theorem ahead_of_lt (hc : c ∈ (ofNode source (some root)).children x.spot) (hlt : c < x.start) :
    (x.sharing hroot hwritten hspot).Ahead c := by
  obtain ⟨front, back, hold, hnew, hfront, hback⟩ := children_spot hroot
  have hmem : c ∈ front := by
    rw [hold, List.mem_append, List.mem_append] at hc
    rcases hc with hc | hc | hc
    · exact hc
    · exact absurd (of_mem_going hc).1 (by omega)
    · exact absurd (hback c hc) (by omega)
  obtain ⟨ahead, behind, rfl⟩ := List.append_of_mem hmem
  rw [List.append_assoc, List.cons_append] at hold
  rw [List.map_append, List.map_cons, List.append_assoc, List.cons_append] at hnew
  refine ⟨?_, fun b hb => ?_⟩
  · change (ofNode source' (some root')).before (x.move c) = List.map x.move _
    rw [Tree.before_of_children hold, Tree.before_of_children hnew, List.map_reverse]
  · rw [Tree.before_of_children hold, List.mem_reverse] at hb
    exact whole_of_stays hroot (by rw [hold]; exact List.mem_append_left _ hb)
      (.inl (hfront b (List.mem_append_left _ hb)))

theorem told_of_lt (hc : c ∈ (ofNode source (some root)).children x.spot) (hlt : c < x.start)
    (hblock : (ofNode source (some root)).kind? x.spot = some .block) :
    (x.sharing hroot hwritten hspot).Told c x.spot := by
  refine .ahead (fun l hl => ?_) (ahead_of_lt hc hlt)
  change (ofNode source (some root)).leader? x.spot = some l at hl
  simp [Tree.leader?, hblock] at hl

/-- The tests in the children that stay say the same. -/
theorem tests_of_stays (hroot : x.Leads source source' 0 root root')
    (hwritten : root.Every Node.Written)
    (hspot : ∀ n above, Numbered root x.spot n above → n.kind = .block ∨ n.kind = .ifStmt)
    (name : Bytes) (row : List Nat)
    (hrow : ∀ b ∈ row, b ∈ (ofNode source (some root)).children x.spot ∧ x.Stays b) :
    (row.map x.move).reverse.findSome? ((ofNode source' (some root')).patternBinding? · name) =
      row.reverse.findSome? ((ofNode source (some root)).patternBinding? · name) := by
  induction row with
  | nil => rfl
  | cons b row ih =>
      obtain ⟨⟨hb, hstays⟩, hrow⟩ := List.forall_mem_cons.mp hrow
      have htest : (ofNode source' (some root')).patternBinding? (x.move b) name =
          (ofNode source (some root)).patternBinding? b name :=
        (x.sharing hroot hwritten hspot).patternBinding? (whole_of_stays hroot hb hstays)
      rw [List.map_cons, List.reverse_cons, List.reverse_cons, List.findSome?_append,
        List.findSome?_append, ih hrow, List.findSome?_singleton, List.findSome?_singleton, htest]

/-- Behind the exchange the tests tell what they told before, if those in the exchanged
statements do. -/
theorem told_of_tests (hc : c ∈ (ofNode source (some root)).children x.spot)
    (hle : x.start + x.gone ≤ c) (hif : (ofNode source (some root)).kind? x.spot = some .ifStmt)
    (htests : ∀ name, (x.coming (ofNode source' (some root'))).reverse.findSome?
        ((ofNode source' (some root')).patternBinding? · name) =
      (x.going (ofNode source (some root))).reverse.findSome?
        ((ofNode source (some root)).patternBinding? · name)) :
    (x.sharing hroot hwritten hspot).Told c x.spot := by
  obtain ⟨front, back, hold, hnew, hfront, hback⟩ := children_spot hroot
  have hmem : c ∈ back := by
    rw [hold, List.mem_append, List.mem_append] at hc
    rcases hc with hc | hc | hc
    · exact absurd (hfront c hc) (by omega)
    · exact absurd (of_mem_going hc).2 (by omega)
    · exact hc
  obtain ⟨ahead, behind, rfl⟩ := List.append_of_mem hmem
  rw [← List.append_assoc, ← List.append_assoc] at hold
  rw [List.map_append, List.map_cons, ← List.append_assoc, ← List.append_assoc] at hnew
  refine .tests hif fun name => ?_
  -- in front of the child stand those in front of the exchange, what is exchanged, and others
  have hahead := tests_of_stays hroot hwritten hspot name ahead fun b hb =>
    ⟨by simp [hold, hb], .inr (hback b (List.mem_append_left _ hb))⟩
  have hfirst := tests_of_stays hroot hwritten hspot name front fun b hb =>
    ⟨by simp [hold, hb], .inl (hfront b hb)⟩
  change ((ofNode source' (some root')).before (x.move c)).findSome? _ = _
  rw [Tree.before_of_children hold, Tree.before_of_children hnew]
  simp only [List.reverse_append, List.findSome?_append, hahead, htests name, hfirst]

/-- A child of the spot is sheltered with all below it if the spot tells it nothing new. -/
theorem sheltered_of_told {e : Nat} (hc : c ∈ (ofNode source (some root)).children x.spot)
    (hstays : x.Stays c) (htold : (x.sharing hroot hwritten hspot).Told c x.spot)
    (he : e = c ∨ (ofNode source (some root)).Below c e) :
    (x.sharing hroot hwritten hspot).Sheltered e := by
  have hsheltered : (x.sharing hroot hwritten hspot).Sheltered c := by
    refine ⟨whole_of_stays hroot hc hstays, ?_⟩
    rw [Tree.ancestors_child hc, List.zip_cons_cons, List.forall_mem_cons]
    exact ⟨htold, fun p hp => told_outside hp⟩
  rcases he with rfl | hbelow
  · exact hsheltered
  · exact hsheltered.below hbelow

/-- What is below a child in front of the exchange stands in front of it too. -/
theorem lt_start (hroot : x.Leads source source' 0 root root') {e : Nat}
    (hc : c ∈ (ofNode source (some root)).children x.spot) (hlt : c < x.start)
    (he : e = c ∨ (ofNode source (some root)).isAncestor c e = true) : e < x.start := by
  obtain ⟨n, above, hn, hapart⟩ := whole_of_stays hroot hc (.inl hlt)
  rcases he with rfl | hinside
  · exact hlt
  · rw [Tree.isAncestor_iff, hn.sizeAt] at hinside
    unfold Apart at hapart
    omega

theorem typeOf_of_told (hfields : (ofNode source (some root)).WritesFieldTypes) {e : Nat}
    (hc : c ∈ (ofNode source (some root)).children x.spot) (hstays : x.Stays c)
    (htold : (x.sharing hroot hwritten hspot).Told c x.spot)
    (he : e = c ∨ (ofNode source (some root)).isAncestor c e = true) :
    ((ofNode source' (some root')).infer (root'.size + 1) (x.move e)).isSome ∧
      (ofNode source' (some root')).typeOf (x.move e) = (ofNode source (some root)).typeOf e := by
  have hsheltered := sheltered_of_told hc hstays htold
    (he.imp_right Tree.below_iff_isAncestor.mpr)
  obtain ⟨n, above, hn, -⟩ := hsheltered.whole
  have htype := hsheltered.typeOf hfields hn.lt_size
  exact htype

end Exchange

namespace Entry

open Node (Numbered)
open Exchange

variable {entry : Entry} {source : Bytes} {n : Node} {id : Nat} {above : List (Nat × Node)}

theorem writesFieldTypes (hfields : ∀ decl < (Tree.parse entry source).size,
    (Tree.parse entry source).isA .fieldDecl decl = true →
      (Tree.parse entry source).infersTypes decl = false) :
    (Tree.parse entry source).WritesFieldTypes := by
  intro decl hdecl
  obtain ⟨n, above, hn, -⟩ := Tree.exists_of_hasKind hdecl
  have hlt := hn.lt_size
  exact hfields decl (by rwa [Tree.parse, Tree.size_ofNode]) hdecl

theorem kind?_of_isA {kind : NodeKind} (h : (Tree.parse entry source).isA kind id = true) :
    (Tree.parse entry source).kind? id = some kind := by
  obtain ⟨_, hkind, heq⟩ := Tree.Sharing.kind?_of_hasKind h
  rw [hkind, beq_iff_eq.mp heq]

theorem kind_of_isA {kind : NodeKind} (h : (Tree.parse entry source).isA kind id = true)
    (hn : Numbered (entry.parse source) id n above) : n.kind = kind := by
  rw [Tree.parse, Tree.isA_eq hn] at h
  exact beq_iff_eq.mp h

/-- What stands behind a statement of a block has nothing to do with the types of the expressions in
the statement and in those in front of it, whatever statements they are. -/
theorem typeOf_ignores_later (entry : Entry) (source source' : Bytes) (root' : Node)
    (x : Exchange)
    (hfields : ∀ decl < (Tree.parse entry source).size,
      (Tree.parse entry source).isA .fieldDecl decl = true →
        (Tree.parse entry source).infersTypes decl = false)
    (hblock : (Tree.parse entry source).isA .block x.spot = true)
    (hexchange : x.Leads source source' 0 (entry.parse source) root') (c e : Nat)
    (hc : c ∈ (Tree.parse entry source).children x.spot) (hfront : c < x.start)
    (he : e = c ∨ (Tree.parse entry source).isAncestor c e = true) :
    ((Tree.ofNode source' (some root')).infer (root'.size + 1) e).isSome ∧
      (Tree.ofNode source' (some root')).typeOf e = (Tree.parse entry source).typeOf e := by
  have hspot : ∀ n above, Numbered (entry.parse source) x.spot n above →
      n.kind = .block ∨ n.kind = .ifStmt := fun n above hn => .inl (kind_of_isA hblock hn)
  have htold : (x.sharing hexchange (entry.parse_written source) hspot).Told c x.spot :=
    told_of_lt hc hfront (kind?_of_isA hblock)
  have htype := typeOf_of_told (writesFieldTypes hfields) hc (.inl hfront) htold he
  rwa [move_of_lt (lt_start hexchange hc hfront he)] at htype

/-- Behind the use of a variable, another variable of its name takes the place of a call. -/
theorem typeOf_ignores_later_declaration :
    let source := Bytes.ofString "int p;var q=p;f(q);"
    let source' := Bytes.ofString "int p;var q=p;String p;"
    let t := Tree.parse .statements source
    let u := Tree.parse .statements source'
    let x : Exchange := ⟨0, 17, 12, 6⟩
    (∀ decl < t.size, t.isA .fieldDecl decl = true → t.infersTypes decl = false) ∧
      t.isA .block x.spot = true ∧
      x.Leads source source' 0 (Entry.statements.parse source) (Entry.statements.parse source') ∧
      7 ∈ t.children x.spot ∧ 7 < x.start ∧ t.isAncestor 7 13 = true ∧
      t.typeOf 13 = some .int ∧ u.typeOf 13 = some .int := by
  intro source source' t u x
  have hfacts : (∀ decl < t.size, t.isA .fieldDecl decl = true → t.infersTypes decl = false) ∧
      t.isA .block x.spot = true ∧
      find? source source' 2 1 1 [] 0 (Entry.statements.parse source)
        (Entry.statements.parse source') = some x ∧
      7 ∈ t.children x.spot ∧ 7 < x.start ∧ t.isAncestor 7 13 = true ∧
      t.typeOf 13 = some .int := by decide +kernel
  obtain ⟨hfields, hblock, hfind, hc, hfront, hinside, htype⟩ := hfacts
  have hexchange := leads_of_find? hfind
  have hsame := typeOf_ignores_later .statements source source' _ x hfields hblock hexchange 7 13
    hc hfront (.inr hinside)
  exact ⟨hfields, hblock, hexchange, hc, hfront, hinside, htype, hsame.2.trans htype⟩

/-- One branch of an `if` statement has nothing to do with the types in the branch behind it, but for
the variables of tests in it: if the tests in what goes and those in what comes say the same of every
name, then the types in the branches behind them are the same. -/
theorem typeOf_ignores_branch (entry : Entry) (source source' : Bytes) (root' : Node)
    (x : Exchange)
    (hfields : ∀ decl < (Tree.parse entry source).size,
      (Tree.parse entry source).isA .fieldDecl decl = true →
        (Tree.parse entry source).infersTypes decl = false)
    (hif : (Tree.parse entry source).isA .ifStmt x.spot = true)
    (hexchange : x.Leads source source' 0 (entry.parse source) root')
    (htests : ∀ name, (x.coming (Tree.ofNode source' (some root'))).reverse.findSome?
        ((Tree.ofNode source' (some root')).patternBinding? · name) =
      (x.going (Tree.parse entry source)).reverse.findSome?
        ((Tree.parse entry source).patternBinding? · name)) (c e : Nat)
    (hc : c ∈ (Tree.parse entry source).children x.spot) (hbehind : x.start + x.gone ≤ c)
    (he : e = c ∨ (Tree.parse entry source).isAncestor c e = true) :
    ((Tree.ofNode source' (some root')).infer (root'.size + 1) (x.move e)).isSome ∧
      (Tree.ofNode source' (some root')).typeOf (x.move e) =
        (Tree.parse entry source).typeOf e := by
  have hspot : ∀ n above, Numbered (entry.parse source) x.spot n above →
      n.kind = .block ∨ n.kind = .ifStmt := fun n above hn => .inr (kind_of_isA hif hn)
  have htold : (x.sharing hexchange (entry.parse_written source) hspot).Told c x.spot :=
    told_of_tests hc hbehind (kind?_of_isA hif) htests
  exact typeOf_of_told (writesFieldTypes hfields) hc (.inr hbehind) htold he

/-- A call takes the place of an empty block, and the test of the condition still tells the type of
`x`. -/
theorem typeOf_ignores_branch_call :
    let source := Bytes.ofString "if(!(o instanceof F x)){}else f(x);"
    let source' := Bytes.ofString "if(!(o instanceof F x))g();else f(x);"
    let t := Tree.parse .statements source
    let u := Tree.parse .statements source'
    let x : Exchange := ⟨1, 18, 3, 9⟩
    (∀ decl < t.size, t.isA .fieldDecl decl = true → t.infersTypes decl = false) ∧
      t.isA .ifStmt x.spot = true ∧
      x.Leads source source' 0 (Entry.statements.parse source) (Entry.statements.parse source') ∧
      (∀ name, (x.coming u).reverse.findSome? (u.patternBinding? · name) =
        (x.going t).reverse.findSome? (t.patternBinding? · name)) ∧
      22 ∈ t.children x.spot ∧ x.start + x.gone ≤ 22 ∧ t.isAncestor 22 29 = true ∧
      t.typeOf 29 = some ⟨Bytes.ofString "F"⟩ ∧ u.typeOf 35 = some ⟨Bytes.ofString "F"⟩ := by
  intro source source' t u x
  have hfacts : (∀ decl < t.size, t.isA .fieldDecl decl = true → t.infersTypes decl = false) ∧
      t.isA .ifStmt x.spot = true ∧
      find? source source' 4 1 1 [0] 0 (Entry.statements.parse source)
        (Entry.statements.parse source') = some x ∧
      (∀ c ∈ (x.coming u).reverse, ∀ j ∈ u.walk (fun _ => true) c,
        u.isA .instanceofExpr j = false) ∧
      (∀ c ∈ (x.going t).reverse, ∀ j ∈ t.walk (fun _ => true) c,
        t.isA .instanceofExpr j = false) ∧
      22 ∈ t.children x.spot ∧ x.start + x.gone ≤ 22 ∧ t.isAncestor 22 29 = true ∧
      x.move 29 = 35 ∧ t.typeOf 29 = some ⟨Bytes.ofString "F"⟩ := by decide +kernel
  obtain ⟨hfields, hif, hfind, hcoming, hgoing, hc, hbehind, hinside, hmove, htype⟩ := hfacts
  have hexchange := leads_of_find? hfind
  have htests : ∀ name, (x.coming u).reverse.findSome? (u.patternBinding? · name) =
      (x.going t).reverse.findSome? (t.patternBinding? · name) := by
    intro name
    rw [List.findSome?_eq_none_iff.mpr fun c hc => Tree.patternBinding?_eq_none (hcoming c hc),
      List.findSome?_eq_none_iff.mpr fun c hc => Tree.patternBinding?_eq_none (hgoing c hc)]
  have hsame := typeOf_ignores_branch .statements source source' _ x hfields hif hexchange htests
    22 29 hc hbehind (.inr hinside)
  rw [hmove, htype] at hsame
  exact ⟨hfields, hif, hexchange, htests, hc, hbehind, hinside, htype, hsame.2⟩

/-- A test that one branch makes for itself tells a type in the other branch, where it hides the
test of the condition. Without it the same name has another type. -/
theorem typeOf_heeds_branch :
    let source := Bytes.ofString "if(!(o instanceof F x)){if(o instanceof G x){}}else f(x);"
    let source' := Bytes.ofString "if(!(o instanceof F x)){}else f(x);"
    let t := Tree.parse .statements source
    let u := Tree.parse .statements source'
    let x : Exchange := ⟨1, 18, 18, 3⟩
    (∀ decl < t.size, t.isA .fieldDecl decl = true → t.infersTypes decl = false) ∧
      t.isA .ifStmt x.spot = true ∧
      x.Leads source source' 0 (Entry.statements.parse source) (Entry.statements.parse source') ∧
      37 ∈ t.children x.spot ∧ x.start + x.gone ≤ 37 ∧ t.isAncestor 37 44 = true ∧
      x.move 44 = 29 ∧ t.typeOf 44 = some ⟨Bytes.ofString "G"⟩ ∧
      u.typeOf 29 = some ⟨Bytes.ofString "F"⟩ := by
  intro source source' t u x
  have hfacts : find? source source' 4 1 1 [0] 0 (Entry.statements.parse source)
        (Entry.statements.parse source') = some x ∧
      (∀ decl < t.size, t.isA .fieldDecl decl = true → t.infersTypes decl = false) ∧
      t.isA .ifStmt x.spot = true ∧ 37 ∈ t.children x.spot ∧ x.start + x.gone ≤ 37 ∧
      t.isAncestor 37 44 = true ∧ x.move 44 = 29 ∧
      t.typeOf 44 = some ⟨Bytes.ofString "G"⟩ ∧ u.typeOf 29 = some ⟨Bytes.ofString "F"⟩ := by
    decide +kernel
  obtain ⟨hfind, hfields, hif, hrest⟩ := hfacts
  exact ⟨hfields, hif, leads_of_find? hfind, hrest⟩

end Entry

end DotCompletion
