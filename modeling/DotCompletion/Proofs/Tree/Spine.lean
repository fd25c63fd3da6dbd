import DotCompletion.Proofs.Grammar.LastOperand
import DotCompletion.Proofs.Tree.LeafAt

/-!
# Operations around a last operand

The operations around a last operand have numbers that do not depend on the operand, and
they begin where they begin whatever the operand is. They all end where it ends.
-/

namespace DotCompletion

namespace Layer

/-- The number of the last operand, where the outermost operation has number `id`. -/
def lastNumber (id : Nat) : List Layer → Nat
  | [] => id
  | l :: layers => lastNumber (id + 1 + Node.sizeAll l.front) layers

/-- The numbers of the operations from the inside out, each with the operations from
there on. -/
def spine (id : Nat) : List Layer → List (Nat × List Layer)
  | [] => []
  | l :: layers => spine (id + 1 + Node.sizeAll l.front) layers ++ [(id, l :: layers)]

/-- Where an operation begins. -/
def start (l : Layer) : Nat := ((l.front.head?.map Node.lo).getD 0)

variable {l : Layer} {layers : List Layer} {id : Nat}

theorem le_lastNumber (id : Nat) (layers : List Layer) :
    id + layers.length ≤ lastNumber id layers := by
  induction layers generalizing id with
  | nil => exact Nat.le_refl _
  | cons l layers ih =>
      have hle := ih (id + 1 + Node.sizeAll l.front)
      rw [lastNumber, List.length_cons]
      omega

theorem mem_spine {a : Nat × List Layer} (h : a ∈ spine id layers) :
    id ≤ a.1 ∧ a.1 < lastNumber id layers ∧ ∃ l inner, a.2 = l :: inner := by
  induction layers generalizing id with
  | nil => cases h
  | cons l layers ih =>
      have hle := le_lastNumber (id + 1 + Node.sizeAll l.front) layers
      rw [spine, List.mem_append, List.mem_singleton] at h
      rw [lastNumber]
      rcases h with h | rfl
      · obtain ⟨hge, hlt, hinner⟩ := ih h
        exact ⟨by omega, hlt, hinner⟩
      · exact ⟨Nat.le_refl _, by simp only; omega, l, layers, rfl⟩

theorem wrap_lo (l : Layer) (x : Node) : (l.wrap x).lo = l.start := by
  obtain ⟨n, rest, hfront⟩ := List.exists_cons_of_ne_nil l.front_ne
  rw [wrap, start, hfront]
  rfl

theorem wrap_hi (l : Layer) (x : Node) : (l.wrap x).hi = x.hi := by
  obtain ⟨n, rest, hfront⟩ := List.exists_cons_of_ne_nil l.front_ne
  simp [wrap, hfront, Node.hi, Node.around, Node.spanOf]

end Layer

namespace Node

open Layer

variable {layers : List Layer} {x : Node}

theorem wrapped_cons (l : Layer) (layers : List Layer) (x : Node) :
    wrapped (l :: layers) x = l.wrap (wrapped layers x) := rfl

theorem wrapped_hi (layers : List Layer) (x : Node) : (wrapped layers x).hi = x.hi := by
  induction layers with
  | nil => rfl
  | cons l layers ih => rw [wrapped_cons, wrap_hi, ih]

theorem mem_yield_wrapped {t : Token} (layers : List Layer) (h : t ∈ x.yield) :
    t ∈ (wrapped layers x).yield := by
  induction layers with
  | nil => exact h
  | cons l layers ih =>
      rw [wrapped_cons, wrap, yield_around, yieldAll_append]
      simp [ih]

/-- The nodes around the last operand. -/
theorem Numbered.wrapped {root : Node} {id : Nat} {above : List (Nat × Node)}
    (h : Numbered root id (x.wrapped layers) above) :
    Numbered root (lastNumber id layers) x
      ((spine id layers).map (fun a => (a.1, Node.wrapped a.2 x)) ++ above) := by
  induction layers generalizing id above with
  | nil => exact h
  | cons l layers ih =>
      have hinner := ih (.child h (show (l.wrap (x.wrapped layers)).children = _ from rfl))
      rw [spine, List.map_append, List.append_assoc]
      exact hinner

/-- Each operation is a node, and those around it are operations as well. -/
theorem Numbered.of_mem_spine {root : Node} {id : Nat} {above : List (Nat × Node)}
    (h : Numbered root id (x.wrapped layers) above) {a : Nat × List Layer}
    (ha : a ∈ spine id layers) :
    ∃ outer ⊆ spine id layers, Numbered root a.1 (x.wrapped a.2)
      (outer.map (fun a => (a.1, x.wrapped a.2)) ++ above) := by
  obtain ⟨inner, outer, hsplit⟩ := List.append_of_mem ha
  have hlast := h.wrapped
  rw [hsplit, List.map_append, List.append_assoc] at hlast
  refine ⟨outer, ?_, hlast.outer rfl⟩
  rw [hsplit]
  exact List.Subset.trans (List.subset_cons_self _ _) (List.subset_append_right _ _)

theorem isExpression_of_operation {kind : NodeKind} (h : kind ∈ NodeKind.operations) :
    kind.isExpression = true := by
  revert kind
  decide

theorem isExpression_wrapped (layers : List Layer) (hx : x.kind.isExpression = true) :
    (x.wrapped layers).kind.isExpression = true := by
  cases layers with
  | nil => exact hx
  | cons l layers => exact isExpression_of_operation l.operation

theorem kind_of_mem_spine {id : Nat} {a : Nat × List Layer} (ha : a ∈ spine id layers) (x : Node) :
    (x.wrapped a.2).kind ∈ NodeKind.operations := by
  obtain ⟨-, -, l, inner, hlayers⟩ := mem_spine ha
  rw [hlayers]
  exact l.operation

end Node

end DotCompletion
