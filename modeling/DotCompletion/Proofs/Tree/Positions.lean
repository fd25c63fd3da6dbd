import DotCompletion.Proofs.Completion.ReplaceRange
import DotCompletion.Proofs.Completion.Sites
import DotCompletion.Proofs.Grammar.Making

/-!
# Positions lead back to their offsets

The lexer counts lines and columns byte by byte, a cut sign and an expression in front of a
swallowed dot get theirs by a step to the right or to the left, and whoever is given a line and a
column looks for newlines. All of them mean the same places: every position of a tree, and every
end of a candidate, is found again at its own offset (`Entry.positions_found`).
-/

namespace DotCompletion

/-! ## The positions of a tree -/

/-- Where the token begins and ends. -/
def Token.positions (t : Token) : List Position := [t.span.start, t.span.stop]

/-- The positions that the node holds: where it begins and ends, and the same of its token and of
the token that its diagnostic was met by. -/
def Node.positions (n : Node) : List Position :=
  [n.span.start, n.span.stop] ++ n.token.toList.flatMap Token.positions ++
    (n.error.bind Diagnostic.got).toList.flatMap Token.positions

section

variable {source : Bytes}

theorem Token.Stands.positions_in {t : Token} (h : t.Stands source) :
    ∀ p ∈ t.positions, p.In source :=
  List.forall_mem_cons.mpr ⟨h.start_in, List.forall_mem_singleton.mpr h.stop_in⟩

namespace Node

/-- The positions of a node are places if the ends of its span are and its tokens stand in the
source. -/
theorem positions_in {n : Node} (hstart : n.span.start.In source) (hstop : n.span.stop.In source)
    (htoken : ∀ t ∈ n.token, t.Stands source)
    (hgot : ∀ t ∈ n.error.bind Diagnostic.got, t.Stands source) :
    ∀ p ∈ n.positions, p.In source := by
  intro p hp
  simp only [positions, List.mem_append, List.mem_cons, List.not_mem_nil, or_false,
    List.mem_flatMap, Option.mem_toList] at hp
  rcases hp with ((rfl | rfl) | ⟨t, ht, hp⟩) | ⟨t, ht, hp⟩
  · exact hstart
  · exact hstop
  · exact (htoken t ht).positions_in p hp
  · exact (hgot t ht).positions_in p hp

theorem span_in_of_positions {n : Node} (h : ∀ p ∈ n.positions, p.In source) :
    n.span.start.In source ∧ n.span.stop.In source := by
  constructor <;> apply h <;> simp [positions]

/-- A node around others begins and ends where one of them does. -/
theorem spanOf_in {p : Position} {children : List Node} (hp : p.In source)
    (hchildren : ∀ n ∈ children, ∀ p ∈ n.positions, p.In source) :
    (spanOf p children).start.In source ∧ (spanOf p children).stop.In source := by
  cases children with
  | nil => exact ⟨hp, hp⟩
  | cons first rest =>
      have hfirst := span_in_of_positions (hchildren first List.mem_cons_self)
      have hlast := span_in_of_positions (hchildren _ (List.getLast_mem (by simp)))
      exact ⟨hfirst.1, hlast.2⟩

end Node

theorem Label.got_diagnose {t u : Token} {label : Label}
    (h : u ∈ (label.diagnose t).bind Diagnostic.got) : u = t := by
  cases label with
  | plain => cases h
  | fault cause => cases cause <;> simp_all [Label.diagnose, Fault.diagnose]

theorem Making.positions (source : Bytes) :
    Making (Cursor.Placed source) fun n => ∀ p ∈ n.positions, p.In source where
  advance := fun hc => hc.advance.1
  splitAngle := fun hc => hc.splitAngle.1
  leaf := fun kind hc => by
    have hnext := hc.next_stands
    apply Node.positions_in hnext.start_in hnext.stop_in
    · rintro _ ⟨⟩
      exact hnext
    · rintro _ ⟨⟩
  missing := fun problem hc => by
    apply Node.positions_in hc.behind_in hc.behind_in
    · rintro _ ⟨⟩
    · rintro _ ⟨⟩
      exact hc.next_stands
  around := fun label children hc hchildren => by
    obtain ⟨hstart, hstop⟩ := Node.spanOf_in hc.next_stands.start_in hchildren
    apply Node.positions_in hstart hstop
    · rintro _ ⟨⟩
    · intro t ht
      rw [Label.got_diagnose ht]
      exact hc.next_stands

/-- Every position of a tree is a place of the source. -/
theorem Entry.positions_in (entry : Entry) (source : Bytes) :
    (entry.parse source).Every fun n => ∀ p ∈ n.positions, p.In source :=
  entry.parse_every (.positions source) (Cursor.placed_ofSource source)

end

/-! ## The ends of candidates -/

namespace Tree

open Node (Numbered)

variable {t : Tree}

theorem isBrokenLiteral_of_below {levels id target : Nat}
    (h : t.brokenLiteralBelow? levels id = some target) : t.isBrokenLiteral target = true := by
  induction levels generalizing id with
  | zero => cases h
  | succ levels ih =>
      rw [brokenLiteralBelow?] at h
      split at h
      next hbroken =>
        cases h
        exact hbroken
      next =>
        obtain ⟨child, _, h⟩ := Option.bind_eq_some_iff.mp h
        exact ih h

/-- A number that ends in a bare dot has a token that does. -/
theorem exists_token_of_isBrokenLiteral {id : Nat} (h : t.isBrokenLiteral id = true) :
    ∃ tok, t.token? id = some tok ∧ tok.kind = .floatLiteral ∧
      Bytes.endsWith '.' tok.literal = true := by
  rw [isBrokenLiteral, Bool.and_eq_true] at h
  cases htoken : t.token? id with
  | none =>
      rw [htoken] at h
      cases h.2
  | some tok =>
      rw [htoken, Option.map_some, Option.getD_some, Bool.and_eq_true, beq_iff_eq] at h
      exact ⟨tok, rfl, h.2⟩

end Tree

/-- One byte in front of the end of a token that ends in a dot. -/
theorem Token.Stands.left_in {source : Bytes} {t : Token} (h : t.Stands source)
    (hdot : Bytes.endsWith '.' t.literal = true) :
    t.span.stop.left.In source ∧ t.span.stop.left.right = t.span.stop := by
  obtain ⟨before, behind, rfl, _, hstop⟩ := h
  obtain ⟨number, hliteral⟩ : ∃ number, t.literal = number ++ ['.'.toUInt8] := by
    rw [Bytes.endsWith, beq_iff_eq] at hdot
    exact List.getLast?_eq_some_iff.mp hdot
  have hright : t.span.stop = (Position.origin.advance (before ++ number)).right := by
    rw [hstop, hliteral, ← List.append_assoc, Position.advance_append]
    rfl
  rw [hright]
  refine ⟨⟨before ++ number, ?_, rfl⟩, rfl⟩
  rw [hliteral]
  simp

namespace Site

open Node (Numbered)

variable {source : Bytes} {entry : Entry} {s : Site}

/-- What was found for a cursor is a node, and a number that swallowed the dot ends in one. -/
theorem exists_target {root : Node} (htree : s.tree = .ofNode source (some root))
    {cursor : Option Nat} (h : s.tree.resolve cursor = .ok s.resolution) :
    ∃ n above, Numbered root s.target n above ∧
      (s.recovered = true → ∃ tok, n.token = some tok ∧ Bytes.endsWith '.' tok.literal = true) := by
  obtain ⟨id, _, _, _, hroute⟩ := Tree.resolve_eq_ok h
  rcases hroute with ⟨hroute, hqualifier⟩ | ⟨hroute, hrecovers⟩
  · have hexpression := (Option.filter_eq_some_iff.mp hqualifier).2
    rw [htree] at hexpression
    obtain ⟨n, above, hn, _⟩ := Tree.exists_of_hasKind hexpression
    refine ⟨n, above, hn, fun hrecovered => ?_⟩
    rw [recovered, hroute] at hrecovered
    cases hrecovered
  · obtain ⟨_, _, _, _, hfound⟩ := hrecovers.found
    have hbroken := Tree.isBrokenLiteral_of_below hfound
    have hliteral := (Bool.and_eq_true _ _ ▸ hbroken).1
    obtain ⟨tok, htok, -, hdot⟩ := Tree.exists_token_of_isBrokenLiteral hbroken
    rw [htree] at hliteral htok
    obtain ⟨n, above, hn, _⟩ := Tree.exists_of_hasKind hliteral
    rw [Tree.token?_eq hn] at htok
    exact ⟨n, above, hn, fun _ => ⟨tok, htok, hdot⟩⟩

theorem spanOf_in (htree : s.tree = .parse entry source) {id : Nat} {n : Node}
    {above : List (Nat × Node)} (hn : Numbered (entry.parse source) id n above) :
    (s.spanOf id).start.In source ∧ (s.spanOf id).stop.In source := by
  rw [spanOf_eq htree hn]
  exact Node.span_in_of_positions (hn.every (entry.positions_in source)).own

/-- The end of the text of all candidates is a place of the source, also where it lies one byte in
front of the end of the target. -/
theorem exists_contentEnd (htree : s.tree = .parse entry source) {cursor : Option Nat}
    (h : s.tree.resolve cursor = .ok s.resolution) :
    ∃ p : Position, p.In source ∧ s.contentEnd = p.place := by
  obtain ⟨n, above, hn, hdot⟩ := exists_target htree h
  have hstop := (spanOf_in htree hn).2
  by_cases hrecovered : s.recovered = true
  · obtain ⟨tok, htok, hdot⟩ := hdot hrecovered
    obtain ⟨hspan, _, hpart⟩ := (hn.every (entry.parse_laid source)).own.leaf tok htok
    have hstands : tok.Stands source := by
      rcases hpart with hpart | rfl
      · exact hpart.stands
      · exact .endAt source
    obtain ⟨hleft, hright⟩ := hstands.left_in hdot
    refine ⟨tok.span.stop.left, hleft, ?_⟩
    rw [contentEnd, hrecovered, spanOf_eq htree hn, hspan, ← hright]
    simp [Position.place, Position.left, Position.right]
  · refine ⟨_, hstop, ?_⟩
    rw [contentEnd, if_neg hrecovered]

/-- Every candidate begins and ends at a place of the source. -/
theorem candidate_in (htree : s.tree = .parse entry source) {cursor : Option Nat}
    (h : s.tree.resolve cursor = .ok s.resolution) {c : Candidate} (hc : c ∈ s.candidates) :
    c.start.In source ∧ ∃ p : Position, p.In source ∧ c.stop = p.place := by
  obtain ⟨id, hid, rfl⟩ := List.mem_map.mp hc
  refine ⟨?_, exists_contentEnd htree h⟩
  obtain ⟨n, above, hn, _⟩ := exists_target htree h
  rcases List.mem_cons.mp hid with rfl | houter
  · exact (spanOf_in htree hn).1
  · have habove := s.outer_subset houter
    rw [htree, Tree.parse, Tree.ancestors_eq hn] at habove
    obtain ⟨outer, hmem, rfl⟩ := List.mem_map.mp habove
    obtain ⟨inner, rest, hsplit⟩ := List.append_of_mem hmem
    exact (spanOf_in htree (hn.outer hsplit)).1

end Site

/-- Every position of a tree leads back to its offset by its line and its column: the ends of the
spans of nodes, of empty ones too, and of tokens, of pieces of cut signs and of those a diagnostic
names too. So do the ends of every candidate for a template, also where a number swallowed the dot
and they lie one byte in front of its end. -/
theorem Entry.positions_found (entry : Entry) (source : Bytes) :
    ((entry.parse source).Every fun n => ∀ p ∈ n.positions,
      Source.offset? source p.line p.column = some p.offset) ∧
    ∀ (cursor : Option Nat) (r : Resolution) (force : Bool),
      (Tree.parse entry source).resolve cursor = .ok r →
        ∀ c ∈ (Site.mk (Tree.parse entry source) r force).candidates,
          Source.offset? source c.start.line c.start.column = some c.start.offset ∧
          ∃ stop : Nat, c.stop.offset = stop ∧
            Source.offset? source c.stop.line c.stop.column = some stop := by
  constructor
  · apply (entry.positions_in source).imp
    intro n hn p hp
    exact Source.offset?_of_in (hn.own p hp)
  · intro cursor r force h c hc
    have htree : (Site.mk (Tree.parse entry source) r force).tree = .parse entry source := rfl
    obtain ⟨hstart, p, hp, hstop⟩ := Site.candidate_in htree h hc
    refine ⟨Source.offset?_of_in hstart, p.offset, ?_, ?_⟩
    · rw [hstop]
      rfl
    · rw [hstop]
      exact Source.offset?_of_in hp

/-- A number on the second line that swallowed the dot: both candidates end in front of it. -/
theorem Entry.positions_found_broken :
    (Tree.parse .statements (Bytes.ofString "x >\n0.abc;")).resolve (some 12) =
        .ok ⟨.brokenLiteral, 10, 7⟩ ∧
      ((Site.mk (Tree.parse .statements (Bytes.ofString "x >\n0.abc;"))
          ⟨.brokenLiteral, 10, 7⟩ true).candidates.map fun c => (c.start, c.stop)) =
        [(⟨4, 2, 1⟩, ⟨5, 2, 2⟩), (⟨0, 1, 1⟩, ⟨5, 2, 2⟩)] ∧
      ∀ c ∈ (Site.mk (Tree.parse .statements (Bytes.ofString "x >\n0.abc;"))
          ⟨.brokenLiteral, 10, 7⟩ true).candidates,
        Source.offset? (Bytes.ofString "x >\n0.abc;") c.start.line c.start.column =
            some c.start.offset ∧
          ∃ stop : Nat, c.stop.offset = stop ∧
            Source.offset? (Bytes.ofString "x >\n0.abc;") c.stop.line c.stop.column =
              some stop := by
  have hresolve : (Tree.parse .statements (Bytes.ofString "x >\n0.abc;")).resolve (some 12) =
      .ok ⟨.brokenLiteral, 10, 7⟩ := by decide +kernel
  refine ⟨hresolve, by decide +kernel, ?_⟩
  exact (Entry.positions_found .statements _).2 _ _ true hresolve

end DotCompletion
