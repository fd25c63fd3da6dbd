import DotCompletion.Proofs.Grammar.Layout
import DotCompletion.Proofs.Grammar.Making

/-!
# Where nodes begin and end

A node begins where one of its nodes or tokens begins, or where it stands for something missing,
and so for its end. What holds of all edges of tokens and of the end of the source holds of all
edges of nodes (`Entry.parse_edges`).
-/

namespace DotCompletion

/-- The property holds of both ends of the span. -/
def Node.Edges (P : Position → Prop) (n : Node) : Prop := P n.span.start ∧ P n.span.stop

theorem Node.Edges.around {P : Position → Prop} (kind : NodeKind) (error : Option Diagnostic)
    {p : Position} {children : List Node} (hp : P p) (hchildren : ∀ n ∈ children, n.Edges P) :
    (Node.around kind error p children).Edges P := by
  cases children with
  | nil => exact ⟨hp, hp⟩
  | cons first rest =>
      exact ⟨(hchildren first List.mem_cons_self).1, (hchildren _ (List.getLast_mem _)).2⟩

/-- The property holds of all edges of tokens of the source and of its end. -/
structure Position.HoldsAtEdges (source : Bytes) (P : Position → Prop) : Prop where
  part : ∀ t : Token, t.Part source → P t.span.start ∧ P t.span.stop
  stop : P (Position.origin.advance source)

/-- The property holds of the place behind the token read last. -/
structure Cursor.EdgesHold (source : Bytes) (P : Position → Prop) (c : Cursor) : Prop where
  placed : c.Placed source
  last : ∀ p ∈ c.last, P p

namespace Cursor.EdgesHold

variable {source : Bytes} {P : Position → Prop} {c : Cursor}

theorem next (h : c.EdgesHold source P) (hP : Position.HoldsAtEdges source P) :
    P c.next.span.start ∧ P c.next.span.stop := by
  rcases h.placed.next with hpart | heof
  · exact hP.part _ hpart
  · rw [heof]
    exact ⟨hP.stop, hP.stop⟩

theorem behind (h : c.EdgesHold source P) (hP : Position.HoldsAtEdges source P) : P c.behind := by
  cases hlast : c.last with
  | none =>
      rw [Cursor.behind, hlast]
      exact (h.next hP).1
  | some p =>
      rw [Cursor.behind, hlast]
      exact h.last p hlast

theorem advance (h : c.EdgesHold source P) (hP : Position.HoldsAtEdges source P) :
    c.advance.EdgesHold source P := by
  refine ⟨h.placed.advance.1, ?_⟩
  cases hrest : c.rest with
  | nil =>
      rw [Cursor.advance, hrest]
      exact h.last
  | cons t rest =>
      rw [Cursor.advance, hrest]
      rintro _ ⟨⟩
      exact (hP.part t (h.placed.parts t (by simp [hrest]))).2

theorem splitAngle (h : c.EdgesHold source P) : c.splitAngle.EdgesHold source P := by
  refine ⟨h.placed.splitAngle.1, ?_⟩
  unfold Cursor.splitAngle
  split
  next => exact h.last
  next => split <;> exact h.last

end Cursor.EdgesHold

theorem Making.edges {source : Bytes} {P : Position → Prop}
    (hP : Position.HoldsAtEdges source P) : Making (Cursor.EdgesHold source P) (Node.Edges P) where
  advance := fun hc => hc.advance hP
  splitAngle := fun hc => hc.splitAngle
  leaf := fun _ hc => hc.next hP
  missing := fun _ hc => ⟨hc.behind hP, hc.behind hP⟩
  around := fun _ _ hc hchildren => .around _ _ (hc.next hP).1 hchildren

/-- What holds of all edges of tokens and of the end of the source holds of all edges of nodes. -/
theorem Entry.parse_edges {source : Bytes} {P : Position → Prop}
    (hP : Position.HoldsAtEdges source P) (entry : Entry) :
    (entry.parse source).Every (Node.Edges P) := by
  have hstart : (Cursor.ofSource source).EdgesHold source P :=
    ⟨Cursor.placed_ofSource source, nofun⟩
  exact entry.parse_every (.edges hP) hstart

end DotCompletion
