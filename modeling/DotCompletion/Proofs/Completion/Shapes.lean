import DotCompletion.Proofs.Completion.Resolving
import DotCompletion.Proofs.Grammar.Semicolons

/-!
# The shapes that completion relies on

Completion looks for references and for expression statements and knows their
parts by their place among the children. Here it is shown that the parts are
there in every tree, whatever the source.
-/

namespace DotCompletion

namespace Node

/-- The node stands in the tree, behind the tokens `front`. -/
inductive At : Node → List Token → Node → Prop
  | here (n : Node) : At n [] n
  | child {root m n : Node} {before after : List Node} {front : List Token}
      (hchildren : root.children = before ++ m :: after) (h : At m front n) :
      At root (yieldAll before ++ front) n

/-- The node is an operand, which may be broken or missing. -/
def IsOperand (n : Node) : Prop := n.kind.isExpression = true ∨ n.kind = .error

/-- The node is the leaf of a sign. -/
def IsSign (n : Node) (sign : TokenKind) : Prop :=
  n.kind = .token ∧ n.token.map Token.kind = some sign

/-- The node has the parts of a reference: an empty list of type arguments and a
name, or an operand, a dot, a list of type arguments and a name that may be
missing. -/
def IsReference (n : Node) : Prop :=
  (∃ list name, n.children = [list, name] ∧
    list.kind = .referenceParameterList ∧ list.token = none ∧ list.children = [] ∧
    name.kind = .identifier) ∨
  ∃ operand dot list name, n.children = [operand, dot, list, name] ∧ operand.IsOperand ∧
    dot.IsSign .dot ∧ list.kind = .referenceParameterList ∧
    (name.kind = .identifier ∨ ∃ p d, name = .missing p d)

/-- The node has the parts of an expression statement: an operand, and a semicolon
or a mark at the end of the last token, where `front` stands in front of the
node. -/
def IsStatementBehind (front : List Token) (n : Node) : Prop :=
  ∃ operand sign, n.children = [operand, sign] ∧ operand.IsOperand ∧
    (sign.IsSign .semicolon ∨
      ∃ t d, (front ++ n.yield).getLast? = some t ∧ sign = .missing t.span.stop d)

theorem isOperand_of_mem {n : Node} (h : n.kind ∈ NodeKind.operands) : n.IsOperand := by
  rcases List.mem_cons.mp h with h | h
  · exact .inr h
  · exact .inl (by simpa [NodeKind.isExpression] using h)

/-- Among four children the dot is the second one, and nothing but the operand is in front of
it. -/
theorem eq_of_dot {operand dot list name sign last : Node} {front lists : List Node}
    (h : front ++ [sign] ++ lists ++ [last] = [operand, dot, list, name])
    (hsign : sign.kind = .token) (hoperand : operand.kind ∈ NodeKind.operands)
    (hlist : list.kind = .referenceParameterList) :
    front = [operand] ∧ sign = dot ∧ last = name := by
  have hoperands : NodeKind.token ∉ NodeKind.operands := by decide
  rcases front with _ | ⟨a, _ | ⟨b, _ | ⟨d, front⟩⟩⟩
  · simp only [List.nil_append, List.cons_append, List.cons.injEq] at h
    rw [← h.1, hsign] at hoperand
    exact absurd hoperand hoperands
  · simp only [List.cons_append, List.nil_append, List.cons.injEq] at h
    obtain ⟨rfl, hdot, hrest⟩ := h
    have hlast := congrArg List.getLast? hrest
    simp only [List.getLast?_append, List.getLast?_singleton, Option.some_or, List.getLast?_cons_cons,
      Option.some.injEq] at hlast
    exact ⟨rfl, hdot, hlast⟩
  · simp only [List.cons_append, List.nil_append, List.cons.injEq] at h
    rw [← h.2.2.1, hsign] at hlist
    cases hlist
  · have hlength := congrArg List.length h
    simp only [List.length_append, List.length_cons, List.length_nil] at hlength
    omega

theorem eq_of_two {list name sign last : Node} {front lists : List Node}
    (h : front ++ [sign] ++ lists ++ [last] = [list, name]) : sign = list := by
  have hlength := congrArg List.length h
  simp only [List.length_append, List.length_cons, List.length_nil] at hlength
  have hfront : front = [] := List.length_eq_zero_iff.mp (by omega)
  subst hfront
  exact (List.cons.inj h).1

/-- The dot of a reference is its second child. -/
theorem Formed.isReference {n : Node} (h : n.Formed) (hshaped : n.Shaped)
    (hkind : n.kind = .referenceExpr) : n.IsReference := by
  have hforms := h.reference hkind
  rcases hshaped.reference_children hkind with
    ⟨list, name, hchildren, hlist, hname⟩ |
      ⟨operand, dot, list, name, hchildren, hoperand, hdot, hlist, hname⟩
  · left
    refine ⟨list, name, hchildren, hlist, ?_⟩
    rw [hchildren] at hforms
    generalize hrow : [list, name] = row at hforms
    cases hforms with
    | alone p t =>
        cases hrow
        exact ⟨rfl, rfl, rfl⟩
    | named | unnamed =>
        rw [← eq_of_two hrow.symm] at hlist
        cases hlist
  · right
    refine ⟨operand, dot, list, name, hchildren, isOperand_of_mem hoperand, ?_⟩
    rw [hchildren] at hforms
    generalize hrow : [operand, dot, list, name] = row at hforms
    cases hforms with
    | alone p t => cases hrow
    | named front lists hsign t =>
        obtain ⟨-, rfl, rfl⟩ := eq_of_dot hrow.symm rfl hoperand hlist
        exact ⟨⟨rfl, congrArg some hsign⟩, hlist, .inl rfl⟩
    | unnamed front lists hsign p d =>
        obtain ⟨-, rfl, rfl⟩ := eq_of_dot hrow.symm rfl hoperand hlist
        exact ⟨⟨rfl, congrArg some hsign⟩, hlist, .inr ⟨p, d, rfl⟩⟩

theorem Formed.children_statement {n : Node} (h : n.Formed) (hshaped : n.Shaped)
    (hkind : n.kind = .exprStmt) :
    ∃ operand sign, n.children = [operand, sign] ∧ operand.IsOperand ∧
      (sign.IsSign .semicolon ∨ ∃ p d, sign = .missing p d) := by
  have hleaf : n.kind.canBeLeaf = false := by rw [hkind]; rfl
  obtain ⟨o, ho, hfits⟩ := hshaped.exists_fits hleaf (by rw [hkind]; rfl)
  rw [List.mem_singleton.mp ho] at hfits
  have hforms := h.statement hkind
  generalize n.children = children at hfits hforms
  rcases hfits with _ | ⟨hoperand, _ | ⟨hsign, ⟨⟩⟩⟩
  next operand sign =>
      refine ⟨operand, sign, rfl, isOperand_of_mem hoperand, ?_⟩
      generalize hrow : [operand, sign] = row at hforms
      have hlast := congrArg List.getLast? hrow
      cases hforms with
      | closed front ht =>
          simp only [List.getLast?_append, List.getLast?_cons_cons, List.getLast?_singleton,
            Option.some_or, Option.some.injEq] at hlast
          subst hlast
          exact .inl ⟨rfl, congrArg some ht⟩
      | unclosed front p d =>
          simp only [List.getLast?_append, List.getLast?_cons_cons, List.getLast?_singleton,
            Option.some_or, Option.some.injEq] at hlast
          exact .inr ⟨p, d, hlast⟩

theorem At.own {root n : Node} {front : List Token} {P : Node → Prop} (h : root.At front n)
    (hroot : root.Every P) : P n := by
  induction h with
  | here n => exact hroot.own
  | child hchildren _ ih => exact ih (hroot.child (by simp [hchildren]))

/-- A statement below the root is closed behind all that stands in front of it. -/
theorem At.closedBehind {root n : Node} {front : List Token} (h : root.At front n)
    (hroot : root.Every fun m => Frame.Closed [] m.children) :
    (root = n ∧ front = []) ∨ n.ClosedBehind front := by
  induction h with
  | here n => exact .inl ⟨rfl, rfl⟩
  | @child root m n before after front hchildren h ih =>
      have hclosed := hroot.own
      rw [hchildren, Frame.closed_append, List.nil_append] at hclosed
      have hm : m ∈ root.children := by simp [hchildren]
      right
      rcases ih (hroot.child hm) with ⟨rfl, rfl⟩ | hbehind
      · rw [List.append_nil]
        exact hclosed.2.1
      · exact hbehind.mono _

end Node

namespace Entry

theorem parse_closed (entry : Entry) (source : Bytes) :
    ((entry.parse source).Every fun m => Frame.Closed [] m.children) ∧
      (entry.parse source).Every Node.Formed ∧ (entry.parse source).kind ≠ .exprStmt := by
  obtain ⟨frame, c, hread⟩ := entry.read?_isSome source
  obtain ⟨node, rfl⟩ := read?_eq_singleton hread
  have hreads : entry.rule.Reads [] (Cursor.ofSource source) [node] c := ⟨_, hread⟩
  have hproper : (Cursor.ofSource source).Proper := ⟨Cursor.ofSource_solid source, rfl⟩
  have hparse : entry.parse source = node := by rw [parse, hread]
  have hordinary : entry.rule.isOrdinary = true := by cases entry <;> rfl
  obtain ⟨hends, _⟩ := hreads.closes.closes none hproper hordinary (fun _ => rfl)
    (by cases entry <;> simp [Entry.rule, Rule.needsToken]) ⟨rfl, List.forall_mem_nil _⟩ trivial
  refine ⟨hparse ▸ hends.inner node List.mem_cons_self, ?_, ?_⟩
  · rw [hparse]
    exact hreads.forms hordinary (fun _ => rfl) .nil node List.mem_cons_self
  · obtain ⟨hleaves, _⟩ := hreads.follows entry.needs_nothing Form.allShaped_nil
    have hkind {kinds : List NodeKind} (h : entry.rule.leaves = some [kinds]) :
        node.kind ∈ kinds := by
      obtain ⟨n, rest, hn, _, hrow⟩ := List.forall₂_cons_left_iff.mp (hleaves _ h)
      cases hrow
      exact hn
    rw [hparse]
    intro hstatement
    rw [hstatement] at hkind
    have hnone : NodeKind.exprStmt ∉ NodeKind.operands := by decide
    cases entry with
    | compilationUnit => exact absurd (hkind rfl) (by decide)
    | statements => exact absurd (hkind rfl) (by decide)
    | expression => exact hnone (hkind rfl)

/-- In every tree a node carries a diagnostic if and only if it marks an error, and
references and expression statements have their parts. A semicolon that is missing
is marked at the end of the last token of the statement; if the statement has no
token, at the end of the last token in front of it. -/
theorem parse_has_shapes (entry : Entry) (source : Bytes) :
    ((entry.parse source).Every fun n =>
      (n.error.isSome = true ↔ n.kind = .error) ∧ (n.kind = .referenceExpr → n.IsReference)) ∧
    ∀ front n, (entry.parse source).At front n → n.kind = .exprStmt →
      n.IsStatementBehind front := by
  obtain ⟨hclosed, hformed, hroot⟩ := entry.parse_closed source
  have hshaped := entry.parse_shaped source
  constructor
  · apply (hformed.and hshaped).imp
    intro n hn
    obtain ⟨hn, hn'⟩ := hn.own
    exact ⟨hn.error, hn.isReference hn'⟩
  · intro front n hat hkind
    obtain ⟨operand, sign, hchildren, hoperand, hsign⟩ :=
      (hat.own hformed).children_statement (hat.own hshaped) hkind
    refine ⟨operand, sign, hchildren, hoperand, hsign.imp_right ?_⟩
    rintro ⟨p, d, rfl⟩
    have hbehind : n.ClosedBehind front :=
      (hat.closedBehind hclosed).resolve_left fun h => hroot (h.1 ▸ hkind)
    obtain ⟨t, ht, hspan⟩ := hbehind hkind (.missing p d) (by simp [hchildren]) rfl
    refine ⟨t, d, ht, ?_⟩
    rw [show p = t.span.stop from congrArg Span.start hspan]

/-- A statement without tokens is marked behind the bracket in front of it. -/
example : ((Entry.statements.parse (Bytes.ofString "if (x)  ")).descendant? [0, 4, 1]).map
    (fun n => (n.kind, n.span)) = some (.error, .point ⟨6, 1, 7⟩) := by
  decide +kernel

end Entry

end DotCompletion
