import DotCompletion.Proofs.Grammar.Reads
import DotCompletion.Proofs.Node.Yield

/-!
# Plain expressions

A plain expression is built of names, integer literals and operators: prefix
operators, binary ones, assignments and conditions. It has no brackets and no
suffixes, so the rules for expressions have few ways to leave one behind. This
module lists them: where the result is plain, an operand has no suffix, and what
follows it is an operator of the grammar or nothing.
-/

namespace DotCompletion

namespace Node

/-- Going by the node itself it can belong to a plain expression. -/
def isPlain (n : Node) : Bool :=
  match n.kind with
  | .literal => n.token.map Token.kind == some .intLiteral
  | .referenceExpr => n.children.length == 2
  | .unaryExpr | .binaryExpr | .assignExpr | .ternaryExpr => true
  | .referenceParameterList | .identifier | .token => true
  | _ => false

/-- The tree is a plain expression. -/
def Plain (n : Node) : Prop := n.Every fun m => m.isPlain = true

instance (n : Node) : Decidable n.Plain := decidable_of_iff (n.all isPlain = true) all_eq_true

end Node

namespace Frame

/-- All nodes of the frame are plain. -/
def Plain (frame : Frame) : Prop := ∀ n ∈ frame, n.Plain

variable {frame frame' : Frame} {n : Node}

theorem Plain.single (h : Plain [n]) : n.isPlain = true := (h n List.mem_cons_self).own

theorem Plain.children (h : Plain [n]) : Plain n.children := fun _ hm =>
  (h n List.mem_cons_self).child hm

theorem Plain.left (h : Plain (frame ++ frame')) : frame.Plain := fun n hn =>
  h n (List.mem_append_left _ hn)

theorem Plain.right (h : Plain (frame ++ frame')) : frame'.Plain := fun n hn =>
  h n (List.mem_append_right _ hn)

end Frame

namespace Cursor

variable {c : Cursor} {t : Token} {rest : List Token}

theorem next_eq (h : c.rest = t :: rest) : c.next = t := by
  rw [next, h]
  rfl

theorem rest_advance (h : c.rest = t :: rest) : c.advance.rest = rest := by
  rw [advance, h]

end Cursor

namespace Grammar

open Form Skim

variable {goto : Behaviour} {frame frame' : Frame} {c c' : Cursor}

/-- A node of a kind that plain expressions do not have. -/
theorem not_plain_of_node {kind : NodeKind} {body : Form}
    (hkind : ∀ error p children, (Node.around kind error p children).isPlain = false)
    (h : (node kind body).Does goto frame c frame' c') : ¬frame'.Plain := by
  obtain ⟨children, _, rfl⟩ := h
  intro hplain
  have hown := hplain.single
  rw [show Label.kind (.plain kind) = kind from rfl, hkind] at hown
  cases hown

theorem not_plain_of_creation (h : Rule.creation.Reads frame c frame' c') : ¬frame'.Plain := by
  obtain ⟨_, _, _, ⟨_, hnode⟩ | ⟨_, hnode⟩⟩ := h.elim
  · exact not_plain_of_node (fun _ _ _ => rfl) hnode
  · exact not_plain_of_node (fun _ _ _ => rfl) hnode

/-- A part behind a dot is not plain: the reference it makes is no name alone. -/
theorem not_plain_of_dotSuffix
    (hgoto : ∀ r frame c frame' c', goto r frame c frame' c' → r.Reads frame c frame' c')
    (h : dotSuffix.Does goto frame c frame' c') : ¬frame'.Plain := by
  obtain ⟨_, _, ⟨rfl, rfl⟩, h⟩ := h
  rcases h with ⟨_, h⟩ | ⟨_, ⟨_, h⟩ | ⟨_, ⟨_, h⟩ | ⟨_, ⟨_, h⟩ | ⟨_, h⟩⟩⟩⟩
  · exact not_plain_of_node (fun _ _ _ => rfl) h
  · exact not_plain_of_node (fun _ _ _ => rfl) h
  · exact not_plain_of_node (fun _ _ _ => rfl) h
  · exact not_plain_of_creation (hgoto _ _ _ _ _ h)
  · obtain ⟨children, ⟨middle, between, hlist, hname⟩, rfl⟩ := h
    have hmiddle : ∃ n, middle = frame ++ [Node.leaf .token c.next] ++ [n] := by
      rcases hlist with ⟨_, nodes, harguments, rfl⟩ | ⟨_, nodes, ⟨_, _, rfl⟩, rfl⟩
      · obtain ⟨_, _, rfl⟩ := (hgoto _ _ _ _ _ harguments).elim
        exact ⟨_, rfl⟩
      · exact ⟨_, rfl⟩
    obtain ⟨n, rfl⟩ := hmiddle
    have hchildren : ∃ m, children = frame ++ [Node.leaf .token c.next] ++ [n] ++ [m] := by
      rcases hname with ⟨_, rfl, _⟩ | ⟨_, rfl, _⟩
      · exact ⟨_, rfl⟩
      · exact ⟨_, rfl⟩
    obtain ⟨m, rfl⟩ := hchildren
    intro hplain
    have hlength := hplain.single
    simp [Node.isPlain, Node.around, Label.kind] at hlength

/-- The binary operators of all levels. -/
def binarySigns : List TokenKind := binaryLevels.flatMap Prod.snd

/-- A binary operator of a level with its right operand, and further operators. -/
def binaryStep (least level : Nat) : Form :=
  node .binaryExpr (token ++ call (.binary (level + 1))) ++ .rule (.operators least)

/-- The level of a binary operator. -/
def levelOf (kind : TokenKind) : Nat :=
  ((binaryLevels.find? fun entry => entry.2.contains kind).map Prod.fst).getD 0

theorem levelOf_eq : ∀ entry ∈ binaryLevels, ∀ k ∈ entry.2, levelOf k = entry.1 := by
  decide

/-- The next token decides which operator is read, if one is. -/
theorem binaryOperators_cases (least : Nat) (kind : TokenKind)
    (levels : List (Nat × List TokenKind)) :
    ∃ f, ((f = .done ∧ ∀ entry ∈ levels, kind ∈ entry.2 → entry.1 < least) ∨
        ∃ entry ∈ levels, kind ∈ entry.2 ∧ least ≤ entry.1 ∧ f = binaryStep least entry.1) ∧
      ∀ (goto : Behaviour) frame c frame' c', kindAt c.rest 0 = kind →
        ((binaryOperators least levels).Does goto frame c frame' c' ↔
          f.Does goto frame c frame' c') := by
  induction levels with
  | nil => exact ⟨.done, .inl ⟨rfl, nofun⟩, fun _ _ _ _ _ _ => Iff.rfl⟩
  | cons entry levels ih =>
      obtain ⟨level, kinds⟩ := entry
      obtain ⟨f, hf, hdoes⟩ := ih
      -- an entry that is passed over says nothing about the operator
      have hlater : (kind ∈ kinds → level < least) →
          ((f = .done ∧ ∀ entry ∈ (level, kinds) :: levels, kind ∈ entry.2 → entry.1 < least) ∨
            ∃ entry ∈ (level, kinds) :: levels, kind ∈ entry.2 ∧ least ≤ entry.1 ∧
              f = binaryStep least entry.1) := by
        intro hpassed
        rcases hf with ⟨rfl, hnone⟩ | ⟨entry, hmem, hentry⟩
        · exact .inl ⟨rfl, List.forall_mem_cons.mpr ⟨hpassed, hnone⟩⟩
        · exact .inr ⟨entry, List.mem_cons_of_mem _ hmem, hentry⟩
      unfold binaryOperators
      by_cases hleast : least ≤ level
      · by_cases hkind : kind ∈ kinds
        · refine ⟨binaryStep least level,
            .inr ⟨(level, kinds), List.mem_cons_self, hkind, hleast, rfl⟩, ?_⟩
          intro goto frame c frame' c' hnext
          simp [hleast, Does, Look.holds, hnext, hkind, binaryStep]
        · refine ⟨f, hlater fun h => absurd h hkind, ?_⟩
          intro goto frame c frame' c' hnext
          simp [hleast, Does, Look.holds, hnext, hkind, hdoes goto frame c frame' c' hnext]
      · refine ⟨f, hlater fun _ => Nat.lt_of_not_le hleast, ?_⟩
        intro goto frame c frame' c' hnext
        simp only [hleast, if_false, hdoes goto frame c frame' c' hnext]

/-- Unless a type is tested, operators are read one after the other, as far as they
bind tightly enough. -/
theorem operators_cases (least : Nat) {kind : TokenKind} (hkind : kind ≠ .kwInstanceof) :
    ∃ f, ((f = .done ∧ (kind ∈ binarySigns → levelOf kind < least)) ∨
        (kind ∈ binarySigns ∧ least ≤ levelOf kind ∧ f = binaryStep least (levelOf kind))) ∧
      ∀ (goto : Behaviour) frame c frame' c', kindAt c.rest 0 = kind →
        ((Rule.operators least).form.Does goto frame c frame' c' ↔
          f.Does goto frame c frame' c') := by
  obtain ⟨f, hf, hdoes⟩ := binaryOperators_cases least kind binaryLevels
  refine ⟨f, ?_, ?_⟩
  · rcases hf with ⟨rfl, hnone⟩ | ⟨entry, hmem, hkinds, hleast, rfl⟩
    · refine .inl ⟨rfl, fun hsign => ?_⟩
      obtain ⟨entry, hmem, hkinds⟩ := List.mem_flatMap.mp hsign
      rw [levelOf_eq entry hmem kind hkinds]
      exact hnone entry hmem hkinds
    · rw [levelOf_eq entry hmem kind hkinds]
      exact .inr ⟨List.mem_flatMap.mpr ⟨_, hmem, hkinds⟩, hleast, rfl⟩
  · intro goto frame c frame' c' hnext
    have hlook : (Look.next (if least ≤ instanceofLevel then [.kwInstanceof] else [])).holds
        frame c.rest = false := by
      simp only [Look.holds, hnext]
      split <;> simp [hkind]
    rw [← hdoes goto frame c frame' c' hnext]
    exact ⟨fun h => (h.resolve_left fun h => by simp [hlook] at h).2, fun h => .inr ⟨hlook, h⟩⟩

end Grammar

namespace Rule.Reads

open Grammar Form Skim

variable {frame frame' : Frame} {c c' : Cursor}

/-- Nothing stands behind an operand where the result is plain. -/
theorem suffixes_eq (h : Rule.suffixes.Reads frame c frame' c') (hplain : frame'.Plain) :
    frame' = frame ∧ c' = c := by
  refine h.induct_reads (fun r frame c frame' c' => r = .suffixes → frame'.Plain →
    frame' = frame ∧ c' = c) ?_ rfl hplain
  rintro r frame c frame' c' hform rfl hplain
  -- a suffix would be the outermost node of what the remaining suffixes work on
  have hstep : ∀ {f : Form}, (∀ {middle between},
      f.Does (fun r frame c frame' c' => r.Reads frame c frame' c' ∧
        (r = .suffixes → frame'.Plain → frame' = frame ∧ c' = c)) frame c middle between →
        ¬Frame.Plain middle) →
      ¬(f ++ .rule .suffixes).Does (fun r frame c frame' c' => r.Reads frame c frame' c' ∧
        (r = .suffixes → frame'.Plain → frame' = frame ∧ c' = c)) frame c frame' c' := by
    rintro f hf ⟨middle, between, hfirst, _, hrest⟩
    obtain ⟨rfl, rfl⟩ := hrest rfl hplain
    exact hf hfirst hplain
  rcases hform with ⟨_, h⟩ | ⟨_, ⟨_, ⟨_, h⟩ | ⟨_, h⟩⟩ | ⟨_, ⟨_, h⟩ | ⟨_, ⟨_, h⟩ | ⟨_, h⟩⟩⟩⟩
  · exact absurd h (hstep (not_plain_of_dotSuffix fun _ _ _ _ _ => And.left))
  · exact absurd h (hstep (not_plain_of_node fun _ _ _ => rfl))
  · exact h
  · rcases h with ⟨_, ⟨_, h⟩ | ⟨_, ⟨_, h⟩ | ⟨_, h⟩⟩⟩ | ⟨_, h⟩
    · exact absurd h (hstep (not_plain_of_node fun _ _ _ => rfl))
    · exact absurd h (hstep (not_plain_of_node fun _ _ _ => rfl))
    · exact h
    · exact absurd h (hstep (not_plain_of_node fun _ _ _ => rfl))
  · refine absurd h (hstep fun href => ?_)
    exact not_plain_of_node (fun _ _ _ => rfl) href.1.elim
  · rcases h with ⟨_, h⟩ | ⟨_, h⟩
    · exact absurd h (hstep (not_plain_of_node fun _ _ _ => rfl))
    · exact h

/-- A primary that is plain is an integer literal or a name. -/
theorem primary_plain (h : Rule.primary.Reads frame c frame' c') (hplain : frame'.Plain)
    {t : Token} {rest : List Token} (hrest : c.rest = t :: rest) :
    t.kind ∈ .intLiteral :: TokenKind.identifiers := by
  rcases h.elim with ⟨hlook, rfl, _⟩ | ⟨_, ⟨_, rfl, _⟩ | ⟨_, ⟨_, rfl, _⟩ | ⟨_, ⟨_, h⟩ |
    ⟨_, ⟨_, h⟩ | ⟨_, ⟨_, h⟩ | ⟨_, ⟨_, h⟩ | ⟨_, ⟨hlook, _⟩ | ⟨_, h⟩⟩⟩⟩⟩⟩⟩⟩
  · have hliteral := hplain.right.single
    simp only [Node.isPlain, Node.leaf, Option.map_some, beq_iff_eq, Option.some.injEq,
      Cursor.next_eq hrest] at hliteral
    rw [hliteral]
    exact List.mem_cons_self
  · exact absurd hplain.right.single (by simp [Node.isPlain, Node.leaf])
  · exact absurd hplain.right.single (by simp [Node.isPlain, Node.leaf])
  · exact absurd hplain (not_plain_of_creation h)
  · exact absurd hplain (not_plain_of_node (fun _ _ _ => rfl) h.elim)
  · exact absurd hplain (not_plain_of_node (fun _ _ _ => rfl) h)
  · obtain ⟨_, _, _, ⟨_, h⟩ | ⟨_, h⟩⟩ := h
    · exact absurd hplain (not_plain_of_node (fun _ _ _ => rfl) h.elim)
    · exact absurd hplain (not_plain_of_node (fun _ _ _ => rfl) h)
  · refine List.mem_cons_of_mem _ ?_
    simpa [Form.atName, Look.holds, kindAt, hrest] using hlook
  · rcases h with ⟨_, rfl, _⟩ | ⟨_, _, ⟨_, _, rfl⟩, rfl⟩
    · exact absurd hplain.right.single (by simp [Node.isPlain, Node.missing])
    · exact absurd hplain.right.single (by simp [Node.isPlain, Node.around, Label.kind])

/-- The operand of operators is plain where the result is, and an operator that
is read is a binary one. -/
theorem operators_plain {least : Nat} (h : (Rule.operators least).Reads frame c frame' c')
    (hplain : frame'.Plain) :
    frame.Plain ∧ ((frame' = frame ∧ c' = c) ∨ kindAt c.rest 0 ∈ binarySigns) := by
  refine h.induct (fun r frame c frame' c' => ∀ least, r = .operators least → frame'.Plain →
    frame.Plain ∧ ((frame' = frame ∧ c' = c) ∨ kindAt c.rest 0 ∈ binarySigns))
    ?_ least rfl hplain
  rintro r frame c frame' c' hform least rfl hplain
  rcases hform with ⟨_, _, _, ⟨_, _, rfl⟩, hrest⟩ | ⟨_, hdoes⟩
  · have htest := (hrest least rfl hplain).1.single
    simp [Node.isPlain, Node.around, Label.kind] at htest
  · obtain ⟨f, ⟨rfl, _⟩ | ⟨_, hmem, hkinds, _, rfl⟩, hiff⟩ :=
      binaryOperators_cases least (kindAt c.rest 0) binaryLevels
    · obtain ⟨rfl, rfl⟩ := (hiff _ _ _ _ _ rfl).mp hdoes
      exact ⟨hplain, .inl ⟨rfl, rfl⟩⟩
    · obtain ⟨_, _, ⟨_, ⟨_, _, ⟨rfl, _⟩, _, _, rfl⟩, rfl⟩, hrest⟩ := (hiff _ _ _ _ _ rfl).mp hdoes
      exact ⟨(hrest least rfl hplain).1.children.left.left,
        .inr (List.mem_flatMap.mpr ⟨_, hmem, hkinds⟩)⟩

end Rule.Reads

end DotCompletion
