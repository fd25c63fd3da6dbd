import DotCompletion.Proofs.Tree.Flattening
import DotCompletion.Tree.Render

/-!
# Listings of a tree and of its table

A tree is listed by going down from its root, one level deeper for each child. Its table is
listed along the links: the nodes are walked one after the other, and each is indented by the
number of nodes met on the way up from it. The two listings are the same, whatever the tree
(`Tree.render_ofNode`).
-/

namespace DotCompletion

namespace Node

theorem lines_eq (positions : Bool) (depth : Nat) (n : Node) (behind : Bytes) :
    n.lines positions depth behind =
      n.line positions depth ++ linesAll positions (depth + 1) n.children behind := by
  cases n
  rw [lines]

/-- The lines of a row are those of its trees one after the other, where each tree has the
numbers that follow those of the tree in front of it. -/
theorem flatMap_eq_linesAll {positions : Bool} {depth id : Nat} {row : List Node}
    {line : Nat → Bytes}
    (h : List.Forall₂ (fun i m => ∀ behind,
      (List.range' i m.size).flatMap line ++ behind = m.lines positions depth behind)
      (numbers id row) row) (behind : Bytes) :
    (List.range' id (sizeAll row)).flatMap line ++ behind =
      linesAll positions depth row behind := by
  induction row generalizing id with
  | nil => rfl
  | cons m row ih =>
      obtain ⟨hm, hrow⟩ := List.forall₂_cons.mp h
      rw [sizeAll_cons, ← List.range'_append_1, List.flatMap_append, List.append_assoc, ih hrow,
        hm, linesAll]

end Node

namespace Tree

open Node (Numbered)

variable {source : Bytes} {root n : Node} {id : Nat} {above : List (Nat × Node)}

theorem error?_eq (h : Numbered root id n above) :
    (ofNode source (some root)).error? id = n.error := by
  obtain ⟨_, _, hslot⟩ := slot?_eq h
  rw [error?, hslot]
  rfl

/-- The way up from a node is as long as the way down to it. -/
theorem line_eq (h : Numbered root id n above) :
    (ofNode source (some root)).line id = n.line false above.length := by
  rw [line, ancestors_eq h, List.length_map, kind?_eq h, token?_eq h, error?_eq h, Node.line,
    if_neg Bool.false_ne_true, List.append_nil]
  rfl

/-- By induction on the tree: the lines of a node and all below it, as the table and as the tree
give them. -/
theorem flatMap_line (h : Numbered root id n above) (behind : Bytes) :
    (List.range' id n.size).flatMap (ofNode source (some root)).line ++ behind =
      n.lines false above.length behind := by
  induction n using Node.induct generalizing id above behind with
  | step n ih =>
      have hchildren : List.Forall₂ (fun i m => ∀ behind,
          (List.range' i m.size).flatMap (ofNode source (some root)).line ++ behind =
            m.lines false (above.length + 1) behind)
          (Node.numbers (id + 1) n.children) n.children :=
        h.forall₂_children fun i m hm hi behind => ih m hm hi behind
      rw [Node.lines_eq, n.size_eq, List.range'_succ, List.flatMap_cons, line_eq h,
        List.append_assoc, Node.flatMap_eq_linesAll hchildren]

/-- The listing of the table of a tree is the listing of the tree. -/
theorem render_ofNode (source : Bytes) (root : Node) :
    (ofNode source (some root)).render = root.render := by
  have hroot : Numbered root 0 root [] := .root
  have hwalk : (ofNode source (some root)).walk (fun _ => true) 0 = List.range' 0 root.size :=
    walk_eq hroot (.of_forall root fun _ => rfl)
  have hlines := @flatMap_line source _ _ _ _ hroot []
  rw [List.append_nil] at hlines
  rw [render, root?_ofNode, Node.render]
  exact (congrArg (List.flatMap _) hwalk).trans hlines

end Tree

end DotCompletion
