import DotCompletion.Node.Basic

/-!
# The tokens of a tree

The yield of a tree is the row of the tokens of its leaves, without the one that
marks the end of the input. Properties of all nodes of a tree are stated with
`Node.Every`.
-/

namespace DotCompletion

namespace Node

/-- Induction over trees: what holds of a node if it holds of its children holds
of all nodes. -/
theorem induct {motive : Node → Prop}
    (step : ∀ n : Node, (∀ m ∈ n.children, motive m) → motive n) (n : Node) : motive n :=
  step n fun m _hm => induct step m
termination_by sizeOf n
decreasing_by
  obtain ⟨kind, span, token, error, children⟩ := n
  have hlt : sizeOf m < sizeOf children := List.sizeOf_lt_of_mem _hm
  simp only [Node.mk.sizeOf_spec]
  omega

mutual

/-- The tokens of a tree from left to right. -/
def yield : Node → List Token
  | ⟨_, _, token, _, children⟩ =>
    (token.filter fun t => t.kind != .eof).toList ++ yieldAll children

/-- The tokens of a row of trees. -/
def yieldAll : List Node → List Token
  | [] => []
  | n :: rest => yield n ++ yieldAll rest

end

theorem yield_eq (n : Node) :
    n.yield = (n.token.filter fun t => t.kind != .eof).toList ++ yieldAll n.children := by
  cases n
  rw [yield]

@[simp] theorem yieldAll_nil : yieldAll [] = [] := rfl

@[simp] theorem yieldAll_cons (n : Node) (rest : List Node) :
    yieldAll (n :: rest) = n.yield ++ yieldAll rest := rfl

@[simp] theorem yieldAll_append (front back : List Node) :
    yieldAll (front ++ back) = yieldAll front ++ yieldAll back := by
  induction front with
  | nil => rfl
  | cons n front ih => simp only [List.cons_append, yieldAll_cons, ih, List.append_assoc]

theorem mem_yieldAll {row : List Node} {t : Token} :
    t ∈ yieldAll row ↔ ∃ n ∈ row, t ∈ n.yield := by
  induction row with
  | nil => simp
  | cons n row ih => simp only [yieldAll_cons, List.mem_append, ih, List.mem_cons, exists_eq_or_imp]

@[simp] theorem yield_missing (p : Position) (d : Diagnostic) : (missing p d).yield = [] := rfl

@[simp] theorem yield_around (kind : NodeKind) (error : Option Diagnostic) (p : Position)
    (children : List Node) : (around kind error p children).yield = yieldAll children := rfl

theorem yield_leaf (kind : NodeKind) {t : Token} (h : t.kind ≠ .eof) :
    (leaf kind t).yield = [t] := by
  rw [yield_eq]
  simp [leaf, h]

theorem yield_leaf_eof (kind : NodeKind) {t : Token} (h : t.kind = .eof) :
    (leaf kind t).yield = [] := by
  rw [yield_eq]
  simp [leaf, h]

theorem ne_eof_of_mem_yield (n : Node) : ∀ v ∈ n.yield, v.kind ≠ .eof := by
  induction n using Node.induct with
  | step n ih =>
      intro v hv
      rw [yield_eq, List.mem_append] at hv
      rcases hv with hv | hv
      · obtain ⟨_, hkind⟩ := Option.filter_eq_some_iff.mp (Option.mem_toList.mp hv)
        simpa using hkind
      · obtain ⟨m, hm, hv⟩ := mem_yieldAll.mp hv
        exact ih m hm v hv

mutual

/-- The nodes of a tree that carry a token, from left to right. -/
def leaves : Node → List Node
  | ⟨kind, span, token, error, children⟩ =>
    (if token.isSome then [⟨kind, span, token, error, children⟩] else []) ++ leavesAll children

/-- The nodes with a token in a row of trees. -/
def leavesAll : List Node → List Node
  | [] => []
  | n :: rest => leaves n ++ leavesAll rest

end

theorem leaves_eq (n : Node) :
    n.leaves = (if n.token.isSome then [n] else []) ++ leavesAll n.children := by
  cases n
  rw [leaves]

@[simp] theorem leavesAll_nil : leavesAll [] = [] := rfl

@[simp] theorem leavesAll_cons (n : Node) (rest : List Node) :
    leavesAll (n :: rest) = n.leaves ++ leavesAll rest := rfl

@[simp] theorem leavesAll_append (front back : List Node) :
    leavesAll (front ++ back) = leavesAll front ++ leavesAll back := by
  induction front with
  | nil => rfl
  | cons n front ih => simp only [List.cons_append, leavesAll_cons, ih, List.append_assoc]

@[simp] theorem leaves_leaf (kind : NodeKind) (t : Token) : (leaf kind t).leaves = [leaf kind t] :=
  rfl

@[simp] theorem leaves_missing (p : Position) (d : Diagnostic) : (missing p d).leaves = [] := rfl

@[simp] theorem leaves_around (kind : NodeKind) (error : Option Diagnostic) (p : Position)
    (children : List Node) : (around kind error p children).leaves = leavesAll children := rfl

theorem leavesAll_filter_sublist (keep : Node → Bool) (row : List Node) :
    (leavesAll (row.filter keep)).Sublist (leavesAll row) := by
  induction row with
  | nil => exact .slnil
  | cons n row ih =>
      rw [List.filter_cons, leavesAll_cons]
      split
      · exact (List.Sublist.refl _).append ih
      · exact ih.trans (List.sublist_append_right _ _)

theorem mem_leavesAll {row : List Node} {m : Node} :
    m ∈ leavesAll row ↔ ∃ n ∈ row, m ∈ n.leaves := by
  induction row with
  | nil => simp
  | cons n row ih =>
      simp only [leavesAll_cons, List.mem_append, ih, List.mem_cons, exists_eq_or_imp]

theorem isSome_of_mem_leaves {n m : Node} (h : m ∈ n.leaves) : m.token.isSome = true := by
  induction n using Node.induct with
  | step n ih =>
      rw [leaves_eq, List.mem_append] at h
      rcases h with h | h
      · split at h
        next hsome =>
            rw [List.mem_singleton.mp h]
            exact hsome
        next => cases h
      · obtain ⟨k, hk, h⟩ := mem_leavesAll.mp h
        exact ih k hk h

/-- The leaf carries the token that marks the end of the input. -/
def marksEnd (n : Node) : Bool := n.token.map Token.kind == some .eof

/-- The tokens of a row of nodes, without the one that marks the end. -/
def words (row : List Node) : List Token :=
  (row.filter fun n => !n.marksEnd).filterMap Node.token

@[simp] theorem words_append (front back : List Node) :
    words (front ++ back) = words front ++ words back := by
  simp only [words, List.filter_append, List.filterMap_append]

theorem words_leavesAll {row : List Node} (h : ∀ n ∈ row, words n.leaves = n.yield) :
    words (leavesAll row) = yieldAll row := by
  induction row with
  | nil => rfl
  | cons n row ih =>
      rw [leavesAll_cons, words_append, yieldAll_cons, h n List.mem_cons_self,
        ih fun m hm => h m (List.mem_cons_of_mem _ hm)]

/-- The yield is made of the tokens of the leaves. -/
theorem words_leaves (n : Node) : words n.leaves = n.yield := by
  induction n using Node.induct with
  | step n ih =>
      rw [leaves_eq, yield_eq, words_append, words_leavesAll ih]
      congr 1
      cases htoken : n.token with
      | none => rfl
      | some t =>
          by_cases hkind : t.kind = .eof <;>
            simp [words, marksEnd, htoken, hkind, Option.filter]

/-- If the end of the input has no text, the leaves have the text of the
tokens. -/
theorem flatMap_literal_eq {row : List Node} (h : ∀ n ∈ row, n.marksEnd = true → n.literal = []) :
    row.flatMap literal = (words row).flatMap Token.literal := by
  induction row with
  | nil => rfl
  | cons n row ih =>
      have hsplit : words (n :: row) = words [n] ++ words row := words_append [n] row
      rw [List.flatMap_cons, hsplit, List.flatMap_append,
        ih fun m hm => h m (List.mem_cons_of_mem _ hm)]
      congr 1
      by_cases hend : n.marksEnd = true
      · rw [h n List.mem_cons_self hend]
        simp [words, hend]
      · cases htoken : n.token <;> simp [words, hend, htoken, literal]

theorem mem_words {row : List Node} {t : Token} :
    t ∈ words row ↔ ∃ n ∈ row, n.marksEnd = false ∧ n.token = some t := by
  simp [words, and_assoc]

/-- The property holds of all nodes of a tree. -/
inductive Every (P : Node → Prop) : Node → Prop
  | intro {n : Node} (own : P n) (children : ∀ m ∈ n.children, Every P m) : Every P n

namespace Every

variable {P Q : Node → Prop} {n : Node}

theorem own (h : n.Every P) : P n := by
  cases h with
  | intro own _ => exact own

theorem child (h : n.Every P) {m : Node} (hm : m ∈ n.children) : m.Every P := by
  cases h with
  | intro _ children => exact children m hm

theorem imp (h : n.Every P) (himp : ∀ m : Node, m.Every P → Q m) : n.Every Q := by
  induction n using Node.induct with
  | step n ih => exact .intro (himp n h) fun m hm => ih m hm (h.child hm)

theorem of_forall (n : Node) (h : ∀ m, P m) : n.Every P := by
  induction n using Node.induct with
  | step n ih => exact .intro (h n) ih

theorem and (h : n.Every P) (h' : n.Every Q) : n.Every fun m => P m ∧ Q m := by
  induction n using Node.induct with
  | step n ih =>
      exact .intro ⟨h.own, h'.own⟩ fun m hm => ih m hm (h.child hm) (h'.child hm)

theorem mem_leaves (h : n.Every P) {m : Node} (hm : m ∈ n.leaves) : P m := by
  induction n using Node.induct with
  | step n ih =>
      rw [leaves_eq, List.mem_append] at hm
      rcases hm with hm | hm
      · split at hm
        · rw [List.mem_singleton.mp hm]
          exact h.own
        · cases hm
      · obtain ⟨k, hk, hm⟩ := mem_leavesAll.mp hm
        exact ih k hk (h.child hk) hm

theorem leaf {kind : NodeKind} {t : Token} (h : P (.leaf kind t)) : (Node.leaf kind t).Every P :=
  .intro h fun _ hm => nomatch hm

theorem missing {p : Position} {d : Diagnostic} (h : P (.missing p d)) :
    (Node.missing p d).Every P :=
  .intro h fun _ hm => nomatch hm

end Every

/-- The property holds of all nodes of a row of trees. -/
def EveryIn (P : Node → Prop) (row : List Node) : Prop := ∀ n ∈ row, n.Every P

namespace EveryIn

variable {P : Node → Prop} {n : Node} {row row' : List Node}

theorem nil : EveryIn P [] := List.forall_mem_nil _

theorem append (h : EveryIn P row) (h' : EveryIn P row') : EveryIn P (row ++ row') :=
  List.forall_mem_append.mpr ⟨h, h'⟩

theorem single (h : n.Every P) : EveryIn P [n] := List.forall_mem_singleton.mpr h

theorem filter (h : EveryIn P row) (keep : Node → Bool) : EveryIn P (row.filter keep) :=
  fun n hn => h n (List.mem_filter.mp hn).1

theorem around {kind : NodeKind} {error : Option Diagnostic} {p : Position}
    (hown : P (.around kind error p row)) (h : EveryIn P row) :
    EveryIn P [.around kind error p row] :=
  single (.intro hown h)

end EveryIn

mutual

/-- The check holds of all nodes of a tree. -/
def all (p : Node → Bool) : Node → Bool
  | ⟨kind, span, token, error, children⟩ =>
    p ⟨kind, span, token, error, children⟩ && allOf p children

/-- The check holds of all nodes of a row of trees. -/
def allOf (p : Node → Bool) : List Node → Bool
  | [] => true
  | n :: rest => all p n && allOf p rest

end

theorem all_eq (p : Node → Bool) (n : Node) : n.all p = (p n && allOf p n.children) := by
  cases n
  rw [all]

theorem allOf_eq_true {p : Node → Bool} {row : List Node} :
    allOf p row = true ↔ ∀ n ∈ row, n.all p = true := by
  induction row with
  | nil => simp [allOf]
  | cons n row ih => simp [allOf, ih]

theorem all_eq_true {p : Node → Bool} {n : Node} :
    n.all p = true ↔ n.Every fun m => p m = true := by
  induction n using Node.induct with
  | step n ih =>
      rw [all_eq, Bool.and_eq_true, allOf_eq_true]
      constructor
      · rintro ⟨hown, hchildren⟩
        exact .intro hown fun m hm => (ih m hm).mp (hchildren m hm)
      · intro h
        exact ⟨h.own, fun m hm => (ih m hm).mpr (h.child hm)⟩

end Node

end DotCompletion
