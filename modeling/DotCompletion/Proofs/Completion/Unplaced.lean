import DotCompletion.Completion.Resolution
import DotCompletion.Proofs.Grammar.Unplaced
import DotCompletion.Proofs.Tree.Numbering

/-!
# Resolution does not see places

The search for what a template applies to walks over parents, children and siblings, and looks
at kinds and at the text of a number. So two sources with the same tokens have the same trees
but for the places, and the same is found from each of their nodes
(`Entry.parse_ignores_layout`).
-/

namespace DotCompletion

/-- The row of the table as if everything stood at the origin. -/
def Slot.unplaced (s : Slot) : Slot :=
  { s with
    span := .point .origin
    token := s.token.map Token.unplaced
    error := s.error.map Diagnostic.unplaced }

namespace Node

theorem size_unplaced (n : Node) : n.unplaced.size = n.size := by
  induction n using Node.induct with
  | step n ih =>
      have hall : ∀ row : List Node, (∀ m ∈ row, m.unplaced.size = m.size) →
          sizeAll (row.map unplaced) = sizeAll row := by
        intro row hrow
        induction row with
        | nil => rfl
        | cons m row ihrow =>
            obtain ⟨hm, hrow⟩ := List.forall_mem_cons.mp hrow
            rw [List.map_cons, sizeAll_cons, sizeAll_cons, hm, ihrow hrow]
      rw [size_eq, size_eq, unplaced_eq, hall n.children ih]

theorem numbers_unplaced (id : Nat) (row : List Node) :
    numbers id (row.map unplaced) = numbers id row := by
  induction row generalizing id with
  | nil => rfl
  | cons n row ih => rw [List.map_cons, numbers, numbers, size_unplaced, ih]

theorem slots_unplaced (parent previous next : Option Nat) (id : Nat) (n : Node) :
    n.unplaced.slots parent previous next id =
      (n.slots parent previous next id).map Slot.unplaced := by
  induction n using Node.induct generalizing parent previous next id with
  | step n ih =>
      have hall : ∀ (row : List Node) (outer : Nat) (before : Option Nat) (first : Nat),
          (∀ m ∈ row, ∀ parent previous next id, m.unplaced.slots parent previous next id =
            (m.slots parent previous next id).map Slot.unplaced) →
          slotsAll outer before first (row.map unplaced) =
            (slotsAll outer before first row).map Slot.unplaced := by
        intro row outer before first hrow
        induction row generalizing before first with
        | nil => rfl
        | cons m row ihrow =>
            obtain ⟨hm, hrow⟩ := List.forall_mem_cons.mp hrow
            rw [List.map_cons, slotsAll, slotsAll, hm, size_unplaced, numbers_unplaced,
              ihrow _ _ hrow, List.map_append]
      rw [slots_eq, slots_eq, List.map_cons, unplaced_eq]
      simp only [numbers_unplaced, hall n.children id none (id + 1) ih]
      rfl

end Node

namespace Tree

/-- The tables differ in places only. -/
def Alike (t u : Tree) : Prop :=
  t.slots.toList.map Slot.unplaced = u.slots.toList.map Slot.unplaced

theorem alike_ofNode {source source' : Bytes} {root root' : Node}
    (h : root.unplaced = root'.unplaced) :
    (ofNode source (some root)).Alike (ofNode source' (some root')) := by
  simp only [Alike, toList_slots, ← Node.slots_unplaced, h]

namespace Alike

variable {t u : Tree}

theorem size (h : t.Alike u) : t.size = u.size := by
  have hlength := congrArg List.length h
  rwa [List.length_map, List.length_map, Array.length_toList, Array.length_toList] at hlength

theorem slot? (h : t.Alike u) (id : Nat) :
    (t.slot? id).map Slot.unplaced = (u.slot? id).map Slot.unplaced := by
  have hget := congrArg (·[id]?) h
  simp only [List.getElem?_map, Array.getElem?_toList] at hget
  exact hget

theorem kind? (h : t.Alike u) (id : Nat) : t.kind? id = u.kind? id := by
  have hslot := congrArg (Option.map Slot.kind) (h.slot? id)
  rw [Option.map_map, Option.map_map] at hslot
  exact hslot

/-- A column of the table that has nothing to do with places. -/
theorem column (h : t.Alike u) (link : Slot → Option Nat)
    (hlink : ∀ s, link s.unplaced = link s) (id : Nat) :
    (t.slot? id).bind link = (u.slot? id).bind link := by
  have hslot := congrArg (Option.bind · link) (h.slot? id)
  simp only [Option.bind_map] at hslot
  rwa [show link ∘ Slot.unplaced = link from funext hlink] at hslot

theorem parent? (h : t.Alike u) : t.parent? = u.parent? :=
  funext (h.column Slot.parent fun _ => rfl)

theorem firstChild? (h : t.Alike u) : t.firstChild? = u.firstChild? :=
  funext (h.column Slot.first fun _ => rfl)

theorem lastChild? (h : t.Alike u) : t.lastChild? = u.lastChild? :=
  funext (h.column Slot.last fun _ => rfl)

theorem previous? (h : t.Alike u) : t.previous? = u.previous? :=
  funext (h.column Slot.previous fun _ => rfl)

theorem next? (h : t.Alike u) : t.next? = u.next? :=
  funext (h.column Slot.next fun _ => rfl)

theorem children (h : t.Alike u) (id : Nat) : t.children id = u.children id := by
  rw [Tree.children, Tree.children, h.next?, h.size, h.firstChild?]

theorem token? (h : t.Alike u) (id : Nat) :
    (t.token? id).map Token.unplaced = (u.token? id).map Token.unplaced := by
  have hslot := congrArg (Option.bind · Slot.token) (h.slot? id)
  simp only [Option.bind_map] at hslot
  rw [Tree.token?, Tree.token?, Option.map_bind, Option.map_bind]
  exact hslot

theorem hasKind (h : t.Alike u) (p : NodeKind → Bool) : t.hasKind p = u.hasKind p := by
  funext id
  rw [Tree.hasKind, Tree.hasKind, h.kind?]

theorem isA (h : t.Alike u) (kind : NodeKind) : t.isA kind = u.isA kind := by
  funext id
  rw [Tree.isA, Tree.isA, h.hasKind]

theorem isExpression (h : t.Alike u) : t.isExpression = u.isExpression := h.hasKind _

theorem before (h : t.Alike u) (id : Nat) : t.before id = u.before id := by
  rw [Tree.before, Tree.before, h.previous?, h.size]

theorem ancestors (h : t.Alike u) (id : Nat) : t.ancestors id = u.ancestors id := by
  rw [Tree.ancestors, Tree.ancestors, h.parent?, h.size]

theorem ancestor? (h : t.Alike u) (p : NodeKind → Bool) (id : Nat) :
    t.ancestor? p id = u.ancestor? p id := by
  rw [Tree.ancestor?, Tree.ancestor?, h.ancestors, h.hasKind]

theorem previousOf? (h : t.Alike u) (p : NodeKind → Bool) (id : Nat) :
    t.previousOf? p id = u.previousOf? p id := by
  rw [Tree.previousOf?, Tree.previousOf?, h.before, h.hasKind]

theorem isBrokenLiteral (h : t.Alike u) (id : Nat) :
    t.isBrokenLiteral id = u.isBrokenLiteral id := by
  have htoken := congrArg (Option.map fun tok : Token =>
    tok.kind == .floatLiteral && Bytes.endsWith '.' tok.literal) (h.token? id)
  rw [Option.map_map, Option.map_map] at htoken
  rw [Tree.isBrokenLiteral, Tree.isBrokenLiteral, h.isA]
  exact congrArg (fun o : Option Bool => u.isA .literal id && o.getD false) htoken

theorem lastExpression? (h : t.Alike u) (id : Nat) :
    t.lastExpression? id = u.lastExpression? id := by
  rw [Tree.lastExpression?, Tree.lastExpression?, h.children, h.isExpression]

theorem brokenLiteralBelow? (h : t.Alike u) (levels id : Nat) :
    t.brokenLiteralBelow? levels id = u.brokenLiteralBelow? levels id := by
  induction levels generalizing id with
  | zero => rfl
  | succ levels ih =>
      rw [Tree.brokenLiteralBelow?, Tree.brokenLiteralBelow?, h.isBrokenLiteral,
        h.lastExpression?, funext ih]

theorem previousExpression (h : t.Alike u) (reference : Nat) :
    t.previousExpression reference = u.previousExpression reference := by
  simp only [Tree.previousExpression, h.ancestor?, h.previousOf?, h.isA, h.isExpression,
    h.lastChild?, h.firstChild?, h.previous?]

theorem resolveBroken (h : t.Alike u) (reference : Nat) :
    t.resolveBroken reference = u.resolveBroken reference := by
  simp only [Tree.resolveBroken, isBare, h.firstChild?, h.children, h.isA, h.previousExpression,
    brokenLiteral?, h.size, h.brokenLiteralBelow?]
  rfl

theorem resolve (h : t.Alike u) (cursor : Option Nat) : t.resolve cursor = u.resolve cursor := by
  simp only [Tree.resolve, h.isA, h.ancestor?, qualifier?, h.firstChild?,
    h.isExpression, h.resolveBroken]

end Alike

end Tree

/-- Blanks and comments between the tokens leave no trace but places: the trees of two sources
with the same tokens are the same otherwise, and from each node the same is found. -/
theorem Entry.parse_ignores_layout {source source' : Bytes}
    (h : (Token.significant source).map Token.lexeme =
      (Token.significant source').map Token.lexeme) (entry : Entry) :
    (entry.parse source).unplaced = (entry.parse source').unplaced ∧
      ∀ cursor, (Tree.parse entry source).resolve cursor =
        (Tree.parse entry source').resolve cursor := by
  have hparse := entry.unplaced_parse h
  exact ⟨hparse, (Tree.alike_ofNode hparse).resolve⟩

/-- A comment and a line break around a broken number change nothing for the template behind
it. -/
theorem Entry.parse_ignores_comment :
    (Token.significant (Bytes.ofString "x>0.var")).map Token.lexeme =
      (Token.significant (Bytes.ofString "x > /* y */ 0.\n  var")).map Token.lexeme ∧
    (Tree.parse .statements (Bytes.ofString "x > /* y */ 0.\n  var")).resolve (some 12) =
      .ok ⟨.brokenLiteral, 10, 7⟩ := by
  have hsame : (Token.significant (Bytes.ofString "x>0.var")).map Token.lexeme =
      (Token.significant (Bytes.ofString "x > /* y */ 0.\n  var")).map Token.lexeme := by
    decide +kernel
  have hfound : (Tree.parse .statements (Bytes.ofString "x>0.var")).resolve (some 12) =
      .ok ⟨.brokenLiteral, 10, 7⟩ := by decide +kernel
  exact ⟨hsame, ((Entry.parse_ignores_layout hsame .statements).2 (some 12)).symm.trans hfound⟩

end DotCompletion
