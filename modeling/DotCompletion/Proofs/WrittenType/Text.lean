import DotCompletion.Proofs.Grammar.Sketch
import DotCompletion.Proofs.Tree.Flattening
import DotCompletion.Proofs.WrittenType.Basic

/-!
# The text of a type in a tree

The text of a type is put together from the tokens of its nodes in the order of their numbers.
These are the lexemes of the type (`WrittenType.writes`), so that the text is the one it should have
(`Tree.writtenType?_eq`).
-/

namespace DotCompletion

open Lexeme (sign)

/-- The kinds of nodes in the tree of a type. -/
def WrittenType.nodeKinds : List NodeKind := [.typeUse, .typeArguments, .identifier, .token]

namespace Sketch

/-- The trees are made of nodes as types have them, and have the lexemes from left to right. -/
inductive Writes : List Sketch → List Lexeme → Prop
  | nil : Writes [] []
  | leaf {kind : NodeKind} (hkind : kind ∈ WrittenType.nodeKinds) (l : Lexeme) :
      Writes [.leaf kind l] [l]
  | node {kind : NodeKind} (hkind : kind ∈ WrittenType.nodeKinds) {children : List Sketch}
      {row : List Lexeme} (h : Writes children row) : Writes [.node kind children] row
  | append {front back : List Sketch} {row row' : List Lexeme} (h : Writes front row)
      (h' : Writes back row') : Writes (front ++ back) (row ++ row')

namespace Writes

variable {sketches : List Sketch} {row : List Lexeme}

theorem token (l : Lexeme) : Writes [.token l] [l] := .leaf (by decide) l

theorem cons_token (h : Writes sketches row) (l : Lexeme) :
    Writes (.token l :: sketches) (l :: row) := (token l).append h

theorem tokens (row : List Lexeme) : Writes (row.map .token) row := by
  induction row with
  | nil => exact .nil
  | cons l row ih => exact ih.cons_token l

theorem sound (h : Writes sketches row) : ∀ s ∈ sketches, s.Sound := by
  have hkinds : ∀ kind ∈ WrittenType.nodeKinds, kind ≠ .error := by decide
  induction h with
  | nil => nofun
  | leaf hkind l => simpa using hkinds _ hkind
  | node hkind _ ih => simpa using ⟨hkinds _ hkind, ih⟩
  | append _ _ ih ih' => exact List.forall_mem_append.mpr ⟨ih, ih'⟩

/-- The nodes with these sketches carry tokens with these lexemes. -/
theorem nodes (h : Writes sketches row) {nodes : List Node}
    (hnodes : nodes.map Node.sketch = sketches) :
    ((Node.preorderAll nodes).filterMap Node.token).map Token.lexeme = row ∧
      ∀ n ∈ nodes, n.Every fun m => m.kind ∈ WrittenType.nodeKinds := by
  induction h generalizing nodes with
  | nil =>
      obtain rfl := List.map_eq_nil_iff.mp hnodes
      exact ⟨rfl, nofun⟩
  | @leaf kind hkind l =>
      obtain ⟨n, rfl, hn⟩ := List.map_eq_singleton_iff.mp hnodes
      obtain ⟨rfl, ⟨t, ht, rfl⟩, hleaf⟩ := Node.of_sketch_leaf hn
      constructor
      · simp [Node.preorderAll, Node.preorder_eq, hleaf, ht]
      · rw [List.forall_mem_singleton]
        exact .intro hkind (by simp [hleaf])
  | @node kind hkind children row _ ih =>
      obtain ⟨n, rfl, hn⟩ := List.map_eq_singleton_iff.mp hnodes
      obtain ⟨rfl, hnone, hchildren⟩ := Node.of_sketch_node hn
      obtain ⟨hrow, hevery⟩ := ih hchildren
      constructor
      · rw [← hrow, Node.preorderAll, Node.preorderAll, List.append_nil, Node.preorder_eq,
          List.filterMap_cons_none hnone]
      · rw [List.forall_mem_singleton]
        exact .intro hkind hevery
  | append _ _ ih ih' =>
      obtain ⟨front, back, rfl, hfront, hback⟩ := List.map_eq_append_iff.mp hnodes
      obtain ⟨hrow, hevery⟩ := ih hfront
      obtain ⟨hrow', hevery'⟩ := ih' hback
      constructor
      · rw [Node.preorderAll_append, List.filterMap_append, List.map_append, hrow, hrow']
      · exact List.forall_mem_append.mpr ⟨hevery, hevery'⟩

end Writes

end Sketch

open Sketch (Writes)

mutual

/-- The tree of a type has the lexemes of the type. -/
theorem WrittenType.writes (t : WrittenType) : Writes [t.sketch] t.lexemes := by
  match t with
  | .primitive k dims => exact .node (by decide) (.cons_token (.tokens _) (sign k))
  | .named n dims => exact .node (by decide) (n.writes.append (.tokens _))

theorem TypeName.writes (n : TypeName) : Writes n.sketches n.lexemes := by
  match n with
  | .last x args =>
      exact (Writes.leaf (by decide) ⟨.identifier, x⟩).append (TypeArgument.writes_listed args)
  | .dotted x args rest =>
      exact (Writes.leaf (by decide) ⟨.identifier, x⟩).append
        ((TypeArgument.writes_listed args).append (rest.writes.cons_token (sign .dot)))

theorem TypeArgument.writes (a : TypeArgument) : Writes [a.sketch] a.lexemes := by
  match a with
  | .exact t => exact t.writes
  | .any => exact .node (by decide) (.token _)
  | .bounded word t => exact .node (by decide) ((t.writes.cons_token _).cons_token _)

theorem TypeArgument.writes_listed (args : List TypeArgument) :
    Writes (TypeArgument.sketches args) (TypeArgument.listed args) := by
  match args with
  | [] => exact .nil
  | a :: rest =>
      have hmore := TypeArgument.writes_more rest
      have hinside := a.writes.append (hmore.append (.token (sign .greater)))
      exact .node (by decide) (hinside.cons_token (sign .less))

theorem TypeArgument.writes_more (args : List TypeArgument) :
    Writes (TypeArgument.moreSketches args) (TypeArgument.more args) := by
  match args with
  | [] => exact .nil
  | a :: rest => exact (a.writes.append (TypeArgument.writes_more rest)).cons_token (sign .comma)

end

/-- A type is never empty. -/
theorem WrittenType.text_ne (t : WrittenType) : t.text ≠ [] := by
  cases t with
  | primitive k dims =>
      have hnames : ∀ k ∈ WrittenType.primitives, Bytes.ofString k.name ≠ [] := by decide
      rw [text]
      exact List.append_ne_nil_of_left_ne_nil (hnames k k.2) _
  | named n dims =>
      have hname : n.text ≠ [] := by
        cases n with
        | last x args => exact List.append_ne_nil_of_left_ne_nil x.2.text_ne _
        | dotted x args rest => exact List.append_ne_nil_of_left_ne_nil x.2.text_ne _
      exact List.append_ne_nil_of_left_ne_nil hname _

namespace Node

variable {root n : Node} {id : Nat} {above : List (Nat × Node)}

theorem Every.mem_preorder {P : Node → Prop} (h : n.Every P) {m : Node} (hm : m ∈ n.preorder) :
    P m := by
  induction n using Node.induct with
  | step n ih =>
      have hall : ∀ row : List Node, (∀ k ∈ row, k ∈ n.children) → m ∈ preorderAll row → P m := by
        intro row hrow hm
        induction row with
        | nil => cases hm
        | cons k row ihrow =>
            obtain ⟨hk, hrow⟩ := List.forall_mem_cons.mp hrow
            rw [preorderAll, List.mem_append] at hm
            rcases hm with hm | hm
            · exact ih k hk (h.child hk) hm
            · exact ihrow hrow hm
      rw [preorder_eq, List.mem_cons] at hm
      rcases hm with rfl | hm
      · exact h.own
      · exact hall n.children (fun _ hk => hk) hm

/-- The nodes with the numbers of a node and of those below it. -/
theorem Numbered.map_range' (h : Numbered root id n above) :
    (List.range' id n.size).map (root.preorder[·]?) = n.preorder.map some := by
  obtain ⟨front, back, hnodes, rfl⟩ := h.exists_preorder
  apply List.ext_getElem
  · rw [List.length_map, List.length_map, List.length_range', length_preorder]
  · intro i hi hi'
    rw [List.length_map] at hi'
    rw [List.getElem_map, List.getElem_map, List.getElem_range', Nat.one_mul, hnodes,
      List.getElem?_append_right (Nat.le_add_right _ _), Nat.add_sub_cancel_left,
      List.getElem?_append_left hi', List.getElem?_eq_getElem hi']

end Node

namespace Tree

open Node (Numbered)

variable {source : Bytes} {root n : Node} {id : Nat} {above : List (Nat × Node)}

theorem token?_eq_preorder (id : Nat) :
    (ofNode source (some root)).token? id = root.preorder[id]?.bind Node.token := by
  obtain ⟨n, above, hn⟩ | houtside := numbered_or_outside root id
  · rw [token?_eq hn, hn.preorder]
    rfl
  · rw [token?, slot?_eq_none houtside, List.getElem?_eq_none (by rwa [Node.length_preorder])]
    rfl

/-- The tokens of a node and of those below it, in the order of their numbers. -/
theorem filterMap_token?_range' (h : Numbered root id n above) :
    (List.range' id n.size).filterMap (ofNode source (some root)).token? =
      n.preorder.filterMap Node.token := by
  have htoken : (ofNode source (some root)).token? =
      (fun o : Option Node => o.bind Node.token) ∘ (root.preorder[·]?) :=
    funext token?_eq_preorder
  rw [htoken, ← List.filterMap_map, h.map_range', List.filterMap_map]
  rfl

/-- What no node of a tree is, no number of it is. -/
theorem isA_range'_eq_false (h : Numbered root id n above) {kind : NodeKind}
    (hnone : n.Every fun m => m.kind ≠ kind) {i : Nat} (hi : i ∈ List.range' id n.size) :
    (ofNode source (some root)).isA kind i = false := by
  have hmem : root.preorder[i]? ∈ n.preorder.map some := by
    rw [← h.map_range']
    exact List.mem_map_of_mem hi
  obtain ⟨m, hm, hnode⟩ := List.mem_map.mp hmem
  obtain ⟨above', hnumbered⟩ := Numbered.of_preorder hnode.symm
  rw [isA_eq hnumbered]
  exact beq_eq_false_iff_ne.mpr (hnone.mem_preorder hm)

/-- The type that a node writes is the one with its lexemes. -/
theorem writtenType?_eq (h : Numbered root id n above) (t : WrittenType)
    (hsketch : n.sketch = t.sketch) :
    (ofNode source (some root)).writtenType? id = some ⟨t.text⟩ := by
  have hkind : n.kind = .typeUse := by
    have hkinds := congrArg Sketch.kind hsketch
    rw [Node.sketch_eq] at hkinds
    cases t <;> exact hkinds
  have hnodes : [n].map Node.sketch = [t.sketch] := congrArg ([·]) hsketch
  obtain ⟨hrow, hevery⟩ := t.writes.nodes hnodes
  rw [Node.preorderAll, Node.preorderAll, List.append_nil] at hrow
  have hkinds : ∀ kind ∈ WrittenType.nodeKinds, kind ≠ .annotationUse := by decide
  have hplain : n.Every fun m => m.kind ≠ .annotationUse :=
    (hevery n List.mem_cons_self).imp fun m hm => hkinds _ hm.own
  have hwalk : (ofNode source (some root)).walk (· != .annotationUse) id =
      List.range' id n.size := walk_eq h (hplain.imp fun m hm => bne_iff_ne.mpr hm.own)
  have hall : (List.range' id n.size).filter
      (fun i => !(ofNode source (some root)).isA .annotationUse i) = List.range' id n.size := by
    rw [List.filter_eq_self]
    intro i hi
    rw [isA_range'_eq_false h hplain hi]
    rfl
  have htext : ((List.range' id n.size).filterMap (ofNode source (some root)).token?).foldl
      appendToken [] = t.text := by
    have hfold := t.foldl_lexemes []
    rw [← hrow, ← filterMap_token?_range' h, List.foldl_map] at hfold
    exact hfold
  have hisA : (ofNode source (some root)).isA .typeUse id = true := by
    rw [isA_eq h, hkind]
    rfl
  rw [writtenType?, if_pos hisA, hwalk, hall]
  simp only [htext]
  exact if_neg (by simpa using t.text_ne)

end Tree

end DotCompletion
