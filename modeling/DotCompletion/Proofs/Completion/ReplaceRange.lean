import DotCompletion.Proofs.Completion.Resolving
import DotCompletion.Proofs.Grammar.Openings
import DotCompletion.Proofs.Token.Insertion
import DotCompletion.Proofs.Tree.LeafAt
import DotCompletion.Template.Expansion

/-!
# What a proposal replaces

Proposals are made for a source that is not the user's: an identifier was
inserted at the cursor. What they replace is nevertheless a part of the user's
source that ends at the cursor. The reference that was found reaches past the
cursor, and every candidate begins at the cursor at the latest. The second part
needs an argument where a number took the first letter of the identifier: the
name at the cursor then begins behind the cursor, and some other token of the
reference comes before it.
-/

namespace DotCompletion

namespace Node

variable {source : Bytes} {p n : Node} {front back : List Node} {tok : Token}

/-- A node that begins with the bare name of a child, or else has a token in
front of that child. -/
theorem exists_before_or_opening (hlaid : p.Every (Laid source))
    (hsplit : p.children = front ++ n :: back) (hkind : p.kind ≠ .referenceExpr)
    (hopening : n.opening = some .identifier) (htok : tok ∈ n.yield) :
    (∃ v ∈ p.yield, v.hi ≤ tok.lo) ∨ p.opening = some .identifier := by
  have hn : n ∈ p.children := by simp [hsplit]
  cases hfront : openingAll front with
  | none =>
      right
      rw [opening_eq, token_eq_none hlaid.own hn, hsplit, openingAll_append, hfront,
        openingAll_cons, hopening]
      simp [hkind]
  | some first =>
      left
      obtain ⟨v, hv⟩ := exists_of_openingAll (fun n _ => n.exists_of_opening)
        (Option.isSome_iff_exists.mpr ⟨first, hfront⟩)
      obtain ⟨m, hm, hvm⟩ := mem_yieldAll.mp hv
      have hordered := hlaid.own.ordered
      rw [hsplit] at hordered
      have hbefore := (List.pairwise_append.mp hordered).2.2 m hm n List.mem_cons_self
      refine ⟨v, ?_, ?_⟩
      · rw [yield_eq, hsplit, yieldAll_append]
        simp [hv]
      · exact Nat.le_trans (hbefore.tokens v hvm).1 ((hlaid.child hn).own.covers tok htok).1

/-- In front of a name without a reference around it, a node that does not begin
with a bare name has another token. -/
theorem Numbered.exists_before {root e : Node} {id k : Nat} {inner above : List (Nat × Node)}
    (hlaid : root.Every (Laid source)) (h : Numbered root id n (inner ++ (k, e) :: above))
    (hinner : ∀ a ∈ inner ++ [(k, e)], a.2.kind ≠ .referenceExpr)
    (he : e.opening ≠ some .identifier) (hopening : n.opening = some .identifier)
    (htok : tok ∈ n.yield) : ∃ v ∈ e.yield, v.hi ≤ tok.lo := by
  induction inner generalizing id n with
  | nil =>
      have hparent := h.parent.every hlaid
      cases h with
      | child _ hsplit =>
          exact (exists_before_or_opening hparent hsplit (hinner (k, e) (by simp))
            hopening htok).resolve_right he
  | cons a inner ih =>
      obtain ⟨i, p⟩ := a
      have hp := h.parent
      have hsub : p.yield ⊆ e.yield :=
        hp.yield_subset (List.mem_cons_of_mem _ (List.mem_append_right _ List.mem_cons_self))
      have hyield : tok ∈ p.yield :=
        @Numbered.yield_subset root n id _ h (i, p) (by simp) tok htok
      have hparent := hp.every hlaid
      cases h with
      | child _ hsplit =>
          rcases exists_before_or_opening hparent hsplit (hinner (i, p) (by simp)) hopening htok
            with ⟨v, hv, hle⟩ | hname
          · exact ⟨v, hsub hv, hle⟩
          · exact ih hp (fun a ha => hinner a (by simp at ha ⊢; tauto)) hname hyield

/-- What holds of all nodes of the tree of a source. -/
structure Wellformed (source : Bytes) (root : Node) : Prop where
  laid : root.Every (Laid source)
  shaped : root.Every Shaped
  named : root.Every (NamesFit source)
  qualified : root.Every Qualified

end Node

theorem Entry.parse_wellformed (entry : Entry) (source : Bytes) :
    (entry.parse source).Wellformed source :=
  ⟨entry.parse_laid source, entry.parse_shaped source, entry.parse_namesFit source,
    entry.parse_qualified source⟩

open Node (Numbered Wellformed)
open Request (dummy)

namespace Tree

variable {source before behind : Bytes} {root n p m : Node} {id k reference target : Nat}
  {above inner outer : List (Nat × Node)} {tok : Token}

/-- A leaf with text has a token of the source. -/
theorem part_of_leaf (hroot : root.Wellformed source) (hn : Numbered root id n above)
    (htoken : n.token = some tok) (hne : n.lo ≠ n.hi) :
    tok.Part source ∧ tok ∈ n.yield ∧ n.lo = tok.lo ∧ n.hi = tok.hi := by
  obtain ⟨hspan, _, hpart⟩ := (hn.every hroot.laid).own.leaf tok htoken
  have hlo : n.lo = tok.lo := by rw [Node.lo, hspan]; rfl
  have hhi : n.hi = tok.hi := by rw [Node.hi, hspan]; rfl
  rcases hpart with hpart | rfl
  · refine ⟨hpart, ?_, hlo, hhi⟩
    rw [Node.yield_eq, htoken]
    simp [hpart.solid.kind]
  · exact absurd (hlo.trans hhi.symm) hne

/-- A token below a node is the token of a leaf with text. -/
theorem exists_leaf_of_mem_yield (hroot : root.Wellformed source) (hn : Numbered root id n above)
    (hv : tok ∈ n.yield) :
    ∃ j leaf above', Numbered root j leaf above' ∧ j < id + n.size ∧ leaf.children = [] ∧
      leaf.lo = tok.lo ∧ leaf.hi = tok.hi ∧ tok.lo < tok.hi := by
  obtain ⟨j, leaf, above', hleaf, htoken, _, hlt⟩ := hn.exists_leaf hv
  obtain ⟨hspan, hnil, hpart⟩ := (hleaf.every hroot.laid).own.leaf tok htoken
  refine ⟨j, leaf, above', hleaf, hlt, hnil, by rw [Node.lo, hspan]; rfl,
    by rw [Node.hi, hspan]; rfl, ?_⟩
  rcases hpart with hpart | rfl
  · exact hpart.lo_lt_hi
  · exact absurd rfl (n.ne_eof_of_mem_yield _ hv)

/-- The leaf at the cursor does not begin behind the inserted identifier: what
does is a name that was taken without looking, and then the token before it is a
leaf as well and covers the cursor. -/
theorem lo_ne_of_first (hroot : root.Wellformed (before ++ (dummy ++ behind)))
    (hn : Numbered root id n ((k, p) :: above)) (hkind : n.kind = .identifier)
    (htoken : n.token = some tok) (hpart : tok.Part (before ++ (dummy ++ behind)))
    (hearlier : ∀ j m above', j < id → Numbered root j m above' → m.children = [] → m.lo ≠ m.hi →
      ¬(m.lo < before.length + dummy.length ∧ before.length + dummy.length ≤ m.hi)) :
    tok.lo ≠ before.length + dummy.length := by
  intro hlo
  obtain ⟨hname, u, hu, hukind, huhi⟩ := hpart.follows_name hlo
  have hp := hn.parent
  have hnot : ∀ row : List Node, n ∈ row → ¬Frame.Named row := by
    intro row hmem hnamed
    obtain ⟨_, htok, hidentifier⟩ := hnamed n hmem hkind
    rw [htoken] at htok
    cases htok
    rw [hidentifier] at hname
    cases hname
  cases hn with
  | @child _ _ _ _ front back _ hsplit =>
      rcases (hp.every hroot.named).own with hnamed | ⟨front', name, hchildren, hnamed, hfollows⟩
      · exact hnot _ (by simp [hsplit]) hnamed
      · -- the node is the last child
        rcases List.eq_nil_or_concat back with rfl | ⟨more, last, rfl⟩
        · obtain ⟨rfl, hsame⟩ := List.append_inj' (hsplit.symm.trans hchildren) rfl
          cases hsame
          obtain ⟨v, hv, hle, hlast⟩ := hfollows tok htoken
          have hwhole := hlast u hu (by rw [hukind]; rfl) (by omega)
          obtain ⟨q, hq, hvq⟩ := Node.mem_yieldAll.mp hv
          obtain ⟨front'', back'', rfl⟩ := List.append_of_mem hq
          have hqsplit : p.children = front'' ++ q :: (back'' ++ [n]) := by simp [hsplit]
          obtain ⟨j, leaf, above', hleaf, hj, hnil, hleafLo, hleafHi, hlt⟩ :=
            exists_leaf_of_mem_yield hroot (.child hp hqsplit) hvq
          refine hearlier j leaf above' ?_ hleaf hnil (by omega) (by omega)
          simp only [Node.sizeAll_append, Node.sizeAll_cons]
          omega
        · refine hnot front' ?_ hnamed
          have hcut : (front ++ n :: more) ++ [last] = front' ++ [name] := by
            rw [← hchildren, hsplit, List.concat_eq_append, List.append_assoc]
            rfl
          obtain ⟨rfl, _⟩ := List.append_inj' hcut rfl
          simp

/-- The token at the cursor begins behind the first letter of the inserted
identifier at the latest and ends behind the last. -/
theorem token_at_cursor (hroot : root.Wellformed (before ++ (dummy ++ behind)))
    (hleaf : (ofNode source (some root)).leafAt? ↑(before.length + dummy.length) = some id)
    (hn : Numbered root id n ((k, p) :: above)) (hkind : n.kind = .identifier) :
    ∃ tok, n.token = some tok ∧ tok ∈ n.yield ∧ tok.Part (before ++ (dummy ++ behind)) ∧
      n.lo = tok.lo ∧ tok.lo ≤ before.length + 1 ∧ before.length + dummy.length ≤ tok.hi := by
  obtain ⟨n', above', hn', _, hne, hcase⟩ := leafAt?_eq_some hleaf
  obtain ⟨rfl, rfl⟩ := hn.unique hn'
  obtain ⟨tok, htoken⟩ := (hn.every hroot.shaped).own.exists_token (by rw [hkind]; rfl)
  obtain ⟨hpart, hyield, hlo, hhi⟩ := part_of_leaf hroot hn htoken hne
  rcases hcase with ⟨hlt, hle⟩ | ⟨hstart, hearlier⟩
  · exact ⟨tok, htoken, hyield, hpart, hlo, hpart.lo_le_of_lt (by omega), by omega⟩
  · exact absurd (hlo.symm.trans hstart)
      (lo_ne_of_first hroot hn hkind htoken hpart hearlier)

/-- The child of a node through which a node below it is reached. -/
theorem exists_child_towards (h : Numbered root id n (inner ++ (k, m) :: outer)) :
    ∃ front c back, m.children = front ++ c :: back ∧ n.yield ⊆ c.yield ∧
      ((inner = [] ∧ c = n) ∨ ∃ path i, inner = path ++ [(i, c)]) := by
  rcases List.eq_nil_or_concat inner with rfl | ⟨path, ⟨i, c⟩, rfl⟩
  · cases h with
    | child _ hsplit => exact ⟨_, n, _, hsplit, List.Subset.refl _, .inl ⟨rfl, rfl⟩⟩
  · rw [List.concat_append] at h
    have hsub : n.yield ⊆ c.yield := @Numbered.yield_subset root n id _ h (i, c) (by simp)
    have hc := h.outer rfl
    cases hc with
    | child _ hsplit =>
        exact ⟨_, c, _, hsplit, hsub, .inr ⟨path, _, List.concat_eq_append⟩⟩

/-- A leaf in front of a node has a token in front of those of the node. -/
theorem exists_before_of_leaf {leaf c : Node} {sign : Token} (hleaf : leaf.Laid source)
    (hc : c.Laid source) (hsign : leaf.token = some sign) (hbefore : leaf.Before c)
    (hpart : tok.Part source) (htok : tok ∈ c.yield) : ∃ v ∈ leaf.yield, v.hi ≤ tok.lo := by
  obtain ⟨hspan, _, hsignPart⟩ := hleaf.leaf sign hsign
  rcases hsignPart with hsignPart | rfl
  · have hyield : sign ∈ leaf.yield := by
      rw [Node.yield_eq, hsign]
      simp [hsignPart.solid.kind]
    exact ⟨sign, hyield, Nat.le_trans (hbefore.tokens sign hyield).1 (hc.covers tok htok).1⟩
  · -- nothing follows the end of the source
    have hlo := (hbefore.spans tok htok).1
    have hend : leaf.lo = (Token.endAt (Position.origin.advance source)).lo := by
      rw [Node.lo, hspan]
      rfl
    rw [hend, Token.lo_endAt, Position.origin_advance_offset] at hlo
    have hle : tok.hi ≤ source.length := hpart.stands.stop_in.offset_le
    have hlt := hpart.lo_lt_hi
    omega

/-- In front of the name at the cursor a qualified reference has another token. -/
theorem exists_before_name (hroot : root.Wellformed source)
    (hn : Numbered root id n (inner ++ (reference, m) :: outer))
    (hinner : ∀ a ∈ inner, a.2.kind ≠ .referenceExpr) (hm : m.kind = .referenceExpr)
    (hkind : n.kind = .identifier) (htoken : n.token = some tok) (hyield : tok ∈ n.yield)
    (hpart : tok.Part source) {q : Node} {back : List Node} (hq : m.children = q :: back)
    (hexpression : q.kind.isExpression = true) : ∃ v ∈ m.yield, v.hi ≤ tok.lo := by
  have hmnode := hn.outer rfl
  obtain ⟨front, c, back', hsplit, hsub, hpath⟩ := exists_child_towards hn
  rcases (hmnode.every hroot.shaped).own.reference_children hm with
    ⟨list, name, hchildren, hlist, _⟩ | ⟨operand, dot, list, name, hchildren, _, hdot, _, _⟩
  · -- without a qualifier the first child is no expression
    rw [hchildren] at hq
    cases hq
    rw [hlist] at hexpression
    cases hexpression
  · rw [hchildren, List.cons.injEq] at hq
    obtain ⟨rfl, _⟩ := hq
    have hdotMem : dot ∈ m.children := by rw [hchildren]; simp
    have hdotLaid := ((hmnode.every hroot.laid).child hdotMem).own
    obtain ⟨sign, hsign⟩ := ((hmnode.every hroot.shaped).child hdotMem).own.exists_token
      (by rw [hdot]; rfl)
    rw [hchildren] at hsplit
    rcases front with _ | ⟨_, _ | ⟨_, front⟩⟩
    · -- the name is part of the qualifier
      cases hsplit
      rcases hpath with ⟨_, rfl⟩ | ⟨path, i, rfl⟩
      · rw [hkind] at hexpression
        cases hexpression
      · rw [List.append_assoc] at hn
        have hopening : n.opening = some .identifier := by
          rw [Node.opening_eq, htoken, hkind]
          simp [hpart.solid.kind]
        obtain ⟨v, hv, hle⟩ := Numbered.exists_before hroot.laid hn hinner
          ((hmnode.every hroot.qualified).own hm _ (by rw [hchildren]; rfl) hexpression)
          hopening hyield
        refine ⟨v, ?_, hle⟩
        rw [Node.yield_eq, hchildren]
        simp [hv]
    · -- the dot has nothing below it
      cases hsplit
      rcases hpath with ⟨_, rfl⟩ | ⟨path, i, rfl⟩
      · rw [hkind] at hdot
        cases hdot
      · rw [List.append_assoc] at hn
        obtain ⟨_, _, _, hbelow, _⟩ := exists_child_towards hn
        rw [(hdotLaid.leaf sign hsign).2.1] at hbelow
        simp at hbelow
    · simp only [List.cons_append, List.cons.injEq] at hsplit
      obtain ⟨rfl, rfl, hrest⟩ := hsplit
      have hordered := (hmnode.every hroot.laid).own.ordered
      rw [hchildren, hrest] at hordered
      have hbefore : dot.Before c := (List.pairwise_cons.mp (List.pairwise_cons.mp hordered).2).1 c
        (by simp)
      have hc : c ∈ m.children := by rw [hchildren, hrest]; simp
      obtain ⟨v, hv, hle⟩ := exists_before_of_leaf hdotLaid
        ((hmnode.every hroot.laid).child hc).own hsign hbefore hpart (hsub hyield)
      refine ⟨v, ?_, hle⟩
      rw [Node.yield_eq, hchildren]
      simp [hv]

/-- A first child begins in front of all tokens of its parent. -/
theorem lo_le_of_firstChild (hroot : root.Wellformed source) (hm : Numbered root k m outer)
    {q : Node} {back : List Node} (hq : m.children = q :: back) {v : Token} (hv : v ∈ m.yield) :
    q.lo ≤ v.lo := by
  have hlaid := hm.every hroot.laid
  have hqMem : q ∈ m.children := by simp [hq]
  rw [Node.yield_eq, Node.token_eq_none hlaid.own hqMem, hq] at hv
  simp only [Option.filter_none, Option.toList_none, List.nil_append, Node.yieldAll_cons,
    List.mem_append] at hv
  rcases hv with hv | hv
  · exact ((hlaid.child hqMem).own.covers v hv).1
  · obtain ⟨c, hc, hv⟩ := Node.mem_yieldAll.mp hv
    have hordered := hlaid.own.ordered
    rw [hq] at hordered
    exact (((List.pairwise_cons.mp hordered).1 c hc).spans v hv).1

/-- Where the reference and the target lie that were found at the cursor. -/
structure Spans (root : Node) (cursor : Nat) (r : Resolution) : Prop where
  reference : ∃ m above, Numbered root r.reference m above ∧ cursor < m.hi
  target : ∃ q above, Numbered root r.target q above ∧ q.lo ≤ cursor ∧
    ∀ a ∈ above, a.2.lo ≤ cursor

theorem spans_of_resolve (hroot : root.Wellformed (before ++ (dummy ++ behind))) {r : Resolution}
    (h : (ofNode (before ++ (dummy ++ behind)) (some root)).resolve
      ((ofNode (before ++ (dummy ++ behind)) (some root)).leafAt?
        ↑(before.length + dummy.length)) = .ok r) :
    Spans root before.length r := by
  have hpos : 0 < dummy.length := by decide
  obtain ⟨id, hleaf, hisA, hreference, hroute⟩ := resolve_eq_ok h
  obtain ⟨n, above, hn, hkind⟩ := exists_of_hasKind hisA
  rw [beq_iff_eq] at hkind
  obtain ⟨inner, m, outer, rfl, hm, hmkind, hinner⟩ := ancestor?_eq_some hn hreference
  rw [beq_iff_eq] at hmkind
  have hinner' : ∀ a ∈ inner, a.2.kind ≠ .referenceExpr := fun a ha => by simpa using hinner a ha
  obtain ⟨tok, htoken, hyield, hpart, hlo, hstart, hstop⟩ :
      ∃ tok, n.token = some tok ∧ tok ∈ n.yield ∧ tok.Part (before ++ (dummy ++ behind)) ∧
        n.lo = tok.lo ∧ tok.lo ≤ before.length + 1 ∧ before.length + dummy.length ≤ tok.hi := by
    cases inner with
    | nil => exact token_at_cursor hroot hleaf hn hkind
    | cons a inner => exact token_at_cursor hroot hleaf hn hkind
  have hmyield : tok ∈ m.yield :=
    @Numbered.yield_subset root n id _ hn (r.reference, m) (by simp) tok hyield
  refine ⟨⟨m, outer, hm, ?_⟩, ?_⟩
  · have hcovers := ((hm.every hroot.laid).own.covers tok hmyield).2
    omega
  · rcases hroute with ⟨_, hqualifier⟩ | ⟨_, hrecovers⟩
    · obtain ⟨hfirst, hexpression⟩ := Option.filter_eq_some_iff.mp hqualifier
      obtain ⟨q, back, hchildren, hq⟩ := exists_firstChild hm hfirst
      rw [isExpression, hasKind_eq hq] at hexpression
      obtain ⟨v, hv, hle⟩ := exists_before_name hroot hn hinner' hmkind hkind htoken hyield hpart
        hchildren hexpression
      obtain ⟨_, _, _, _, _, _, _, _, hlt⟩ := exists_leaf_of_mem_yield hroot hm hv
      refine ⟨q, _, hq, ?_, fun a ha => ?_⟩
      · have hbegins := lo_le_of_firstChild hroot hm hchildren hv
        omega
      · obtain ⟨front, back', hsplit⟩ := List.append_of_mem ha
        have hcovers := ((hq.outer hsplit).every hroot.laid).own.covers v (hm.yield_subset ha hv)
        omega
    · obtain ⟨t, above', broken, ht, hbroken, hfloat, _, hle⟩ :=
        hrecovers.hi_le hroot.laid hm hn rfl htoken
      have hbrokenYield : broken ∈ t.yield := by
        rw [Node.yield_eq, hbroken]
        simp [hfloat]
      obtain ⟨_, _, _, _, _, _, _, _, hlt⟩ := exists_leaf_of_mem_yield hroot ht hbrokenYield
      have hcovers := (ht.every hroot.laid).own.covers broken hbrokenYield
      refine ⟨t, above', ht, by omega, fun a ha => ?_⟩
      obtain ⟨front, back', hsplit⟩ := List.append_of_mem ha
      have hcoversAbove := ((ht.outer hsplit).every hroot.laid).own.covers broken
        (ht.yield_subset (List.mem_cons_of_mem _ ha) hbrokenYield)
      omega

end Tree

/-! ## Proposals -/

theorem Site.outer_subset (s : Site) : s.outer ⊆ s.tree.ancestors s.target :=
  List.Subset.trans (List.takeWhile_subset _)
    (List.Subset.trans List.filter_sublist.subset (List.takeWhile_subset _))

/-- What a proposal of a template replaces begins with the target or with an
expression around it, and ends with the reference. -/
theorem Template.exists_replace {templates : List Template} {s : Site} {p : Proposal}
    (h : p ∈ (Template.manager templates).proposalsAt s) :
    ∃ id ∈ s.target :: s.tree.ancestors s.target, p.replace = s.replaceSpan id := by
  obtain ⟨registration, hregistration, hp⟩ := List.mem_flatMap.mp h
  obtain ⟨provider, hprovider, hregistered⟩ := List.mem_filterMap.mp hregistration
  obtain ⟨template, _, rfl⟩ := List.mem_map.mp hprovider
  obtain ⟨metadata, _, rfl⟩ := Option.map_eq_some_iff.mp hregistered
  obtain ⟨made, hmade, rfl⟩ := List.mem_map.mp hp
  simp only [Template.provider, Option.getD_some, Option.mem_toList] at hmade
  obtain ⟨candidate, hchosen, rfl⟩ := Option.map_eq_some_iff.mp hmade
  have hcandidate : candidate ∈ s.candidates := by
    have hmem := List.mem_of_find?_eq_some hchosen
    unfold Template.ordered at hmem
    split at hmem
    next => exact List.mem_reverse.mp hmem
    next => exact hmem
  obtain ⟨id, hid, rfl⟩ := List.mem_map.mp hcandidate
  simp only [Registration.finish]
  split
  next => exact ⟨s.target, List.mem_cons_self, rfl⟩
  next =>
      refine ⟨id, ?_, rfl⟩
      exact (List.mem_cons.mp hid).elim (fun heq => heq ▸ List.mem_cons_self)
        fun hmem => List.mem_cons_of_mem _ (s.outer_subset hmem)

namespace Request

theorem exists_patch_eq (source : Bytes) (offset : Nat) :
    ∃ behind, patch source offset = source.take offset ++ (dummy ++ behind) :=
  ⟨(if Blank.isBlankText (Source.restOfLine source offset) then [';'.toUInt8] else []) ++
    source.drop offset, by simp only [patch, List.append_assoc]⟩

/-- What is to be replaced at a cursor: a part of the source that ends there. -/
structure Replaces (source : Bytes) (line column : Int) (offset : Nat) (s : Span) : Prop where
  stop_offset : s.stop.offset = offset
  stop_line : (s.stop.line : Int) = line
  stop_column : (s.stop.column : Int) = column
  start_le : s.start.offset ≤ offset
  offset_le : offset ≤ source.length
  start_in : Source.offset? source s.start.line s.start.column = some s.start.offset
  text_length : (s.text source).length = offset - s.start.offset

/-- A place of the patched source that is not behind the cursor is one of the
source. -/
theorem in_of_patched {source behind : Bytes} {offset : Nat} {p : Position}
    (h : p.In (source.take offset ++ (dummy ++ behind))) (hle : p.offset ≤ offset)
    (hoffset : offset ≤ source.length) : p.In source := by
  refine h.of_take_eq ?_
  rw [List.take_append_of_le_length (by rw [List.length_take]; omega), List.take_take,
    Nat.min_eq_left hle]

/-- Once it ends at the cursor, what begins there at the latest is a part of the
source. -/
theorem replaces_of_start {source : Bytes} {line column : Int} {offset : Nat} {start : Position}
    (h : Source.offset? source line column = some offset) (hin : start.In source)
    (hle : start.offset ≤ offset) :
    Replaces source line column offset ⟨start, ⟨offset, line.toNat, column.toNat⟩⟩ := by
  have hoffset := Source.offset?_le h
  have hpos : 1 ≤ line ∧ 1 ≤ column := by
    unfold Source.offset? at h
    split at h
    next => cases h
    next hpos => omega
  exact
    { stop_offset := rfl
      stop_line := Int.toNat_of_nonneg (by omega)
      stop_column := Int.toNat_of_nonneg (by omega)
      start_le := hle
      offset_le := hoffset
      start_in := Source.offset?_of_in hin
      text_length := by
        simp only [Span.text, Bytes.slice, List.length_drop, List.length_take]
        omega }

/-- What a proposal replaces begins with a node of the patched source, at the cursor at the
latest, and ends at the cursor. -/
theorem exists_node_of_complete (r : Request) (templates : List Template) {source : Bytes}
    {offset : Nat} (h : Source.offset? source r.line r.column = some offset) :
    ∃ proposals, r.complete (Template.manager templates) source = .ok proposals ∧
      ∀ p ∈ proposals, ∃ id n above,
        Numbered (r.entry.parse (patch source offset)) id n above ∧ n.lo ≤ offset ∧
          p.replace = ⟨n.span.start, ⟨offset, r.line.toNat, r.column.toNat⟩⟩ := by
  simp only [complete, h]
  refine ⟨_, rfl, fun clamped hclamped => ?_⟩
  obtain ⟨p, hp, rfl⟩ := List.mem_map.mp hclamped
  have hle := Source.offset?_le h
  have hlength : (source.take offset).length = offset := by rw [List.length_take]; omega
  obtain ⟨behind, hpatch⟩ := exists_patch_eq source offset
  rw [hpatch] at hp ⊢
  have hroot := r.entry.parse_wellformed (source.take offset ++ (dummy ++ behind))
  rw [Tree.parse] at hp
  generalize r.entry.parse (source.take offset ++ (dummy ++ behind)) = root at hp hroot ⊢
  unfold Manager.available at hp
  split at hp
  next resolution hresolve =>
      have hspans := Tree.spans_of_resolve hroot (by rw [hlength]; exact_mod_cast hresolve)
      rw [hlength] at hspans
      obtain ⟨m, _, hm, hmhi⟩ := hspans.reference
      obtain ⟨q, above, hq, hqlo, habove⟩ := hspans.target
      obtain ⟨id, hid, hreplace⟩ := Template.exists_replace hp
      obtain ⟨n, above', hn, hnlo⟩ : ∃ n above', Numbered root id n above' ∧ n.lo ≤ offset := by
        rcases List.mem_cons.mp hid with rfl | hid
        · exact ⟨q, above, hq, hqlo⟩
        · simp only [Site.target, Tree.ancestors_eq hq] at hid
          obtain ⟨a, ha, rfl⟩ := List.mem_map.mp hid
          obtain ⟨inner, outer, hsplit⟩ := List.append_of_mem ha
          exact ⟨a.2, outer, hq.outer hsplit, habove a ha⟩
      have hspan : p.replace = ⟨n.span.start, m.span.stop⟩ := by
        rw [hreplace, Site.replaceSpan, Site.spanOf, Site.spanOf, Tree.span?_eq hn, Site.reference,
          Tree.span?_eq hm]
        rfl
      refine ⟨id, n, above', hn, hnlo, ?_⟩
      unfold clamp
      rw [if_pos (by rw [hspan]; exact hmhi), hspan]
  next => cases hp

/-- Every proposal replaces a part of the source that ends at the cursor. -/
theorem complete_replaces (r : Request) (templates : List Template) {source : Bytes} {offset : Nat}
    (h : Source.offset? source r.line r.column = some offset) :
    ∃ proposals, r.complete (Template.manager templates) source = .ok proposals ∧
      ∀ p ∈ proposals, Replaces source r.line r.column offset p.replace := by
  obtain ⟨proposals, hok, hall⟩ := r.exists_node_of_complete templates h
  refine ⟨proposals, hok, fun p hp => ?_⟩
  obtain ⟨id, n, above, hn, hnlo, hreplace⟩ := hall p hp
  obtain ⟨behind, hpatch⟩ := exists_patch_eq source offset
  have hstart := (hn.every (r.entry.parse_laid _)).own.start_in
  rw [hpatch] at hstart
  rw [hreplace]
  exact replaces_of_start h (in_of_patched hstart hnlo (Source.offset?_le h)) hnlo

theorem complete_replaces_qualifier :
    ∃ proposals, (Request.mk .statements 1 5 true).complete
        (Template.manager [{ Template.blank with name := "par", body := "($expr)" }])
        (Bytes.ofString "a+b.") = .ok proposals ∧ proposals ≠ [] ∧
      ∀ p ∈ proposals, Replaces (Bytes.ofString "a+b.") 1 5 4 p.replace := by
  have hoffset : Source.offset? (Bytes.ofString "a+b.") 1 5 = some 4 := by decide +kernel
  obtain ⟨proposals, hok, hall⟩ := complete_replaces (Request.mk .statements 1 5 true)
    [{ Template.blank with name := "par", body := "($expr)" }] hoffset
  refine ⟨proposals, hok, ?_, hall⟩
  have hsome : ((Request.mk .statements 1 5 true).complete
      (Template.manager [{ Template.blank with name := "par", body := "($expr)" }])
      (Bytes.ofString "a+b.")).toOption.map List.length = some 1 := by decide +kernel
  rintro rfl
  rw [hok] at hsome
  cases hsome

end Request

end DotCompletion
