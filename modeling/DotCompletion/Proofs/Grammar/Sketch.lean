import DotCompletion.Proofs.Grammar.LastOperand
import DotCompletion.Proofs.Grammar.Progress
import DotCompletion.Proofs.Token.Spaced

/-!
# Reading up to places

What a form makes of a row of tokens depends on their kinds and texts, and so do
the kinds of the nodes it makes. A sketch is a tree without places. `Form.Turns`
says which sketches a form makes of a row of lexemes, and is put together along a
form.
-/

namespace DotCompletion

open Skim

/-- A tree without places and diagnostics. -/
structure Sketch where
  kind : NodeKind
  lexeme : Option Lexeme
  children : List Sketch

namespace Sketch

/-- A leaf made from one token. -/
def leaf (kind : NodeKind) (l : Lexeme) : Sketch := ⟨kind, some l, []⟩

/-- A token that is kept as it is. -/
def token (l : Lexeme) : Sketch := leaf .token l

/-- A node around others. -/
def node (kind : NodeKind) (children : List Sketch) : Sketch := ⟨kind, none, children⟩

end Sketch

namespace Node

mutual

/-- The tree without places and diagnostics. -/
def sketch : Node → Sketch
  | ⟨kind, _, token, _, children⟩ => ⟨kind, token.map Token.lexeme, sketchAll children⟩

/-- A row of trees without places and diagnostics. -/
def sketchAll : List Node → List Sketch
  | [] => []
  | n :: rest => sketch n :: sketchAll rest

end

theorem sketchAll_eq_map (row : List Node) : sketchAll row = row.map sketch := by
  induction row with
  | nil => rfl
  | cons n row ih => rw [sketchAll, ih, List.map_cons]

theorem sketch_eq (n : Node) :
    n.sketch = ⟨n.kind, n.token.map Token.lexeme, n.children.map sketch⟩ := by
  cases n
  rw [sketch, sketchAll_eq_map]

/-- A node with the sketch of a node around others. -/
theorem of_sketch_node {n : Node} {kind : NodeKind} {children : List Sketch}
    (h : n.sketch = .node kind children) :
    n.kind = kind ∧ n.token = none ∧ n.children.map sketch = children := by
  rw [sketch_eq, Sketch.node, Sketch.mk.injEq, Option.map_eq_none_iff] at h
  exact h

/-- A node with the sketch of a leaf. -/
theorem of_sketch_leaf {n : Node} {kind : NodeKind} {l : Lexeme} (h : n.sketch = .leaf kind l) :
    n.kind = kind ∧ (∃ t, n.token = some t ∧ t.lexeme = l) ∧ n.children = [] := by
  rw [sketch_eq, Sketch.leaf, Sketch.mk.injEq, Option.map_eq_some_iff, List.map_eq_nil_iff] at h
  exact h

end Node

/-- No part of the tree marks an error. -/
inductive Sketch.Sound : Sketch → Prop
  | mk {s : Sketch} (kind : s.kind ≠ .error) (children : ∀ child ∈ s.children, child.Sound) :
      s.Sound

namespace Sketch

theorem sound_iff (s : Sketch) : s.Sound ↔ s.kind ≠ .error ∧ ∀ child ∈ s.children, child.Sound :=
  ⟨fun ⟨kind, children⟩ => ⟨kind, children⟩, fun ⟨kind, children⟩ => .mk kind children⟩

@[simp] theorem sound_node (kind : NodeKind) (children : List Sketch) :
    (node kind children).Sound ↔ kind ≠ .error ∧ ∀ child ∈ children, child.Sound := sound_iff _

@[simp] theorem sound_leaf (kind : NodeKind) (l : Lexeme) :
    (leaf kind l).Sound ↔ kind ≠ .error := by
  rw [sound_iff]
  simp [leaf]

@[simp] theorem sound_token (l : Lexeme) : (token l).Sound := by
  simp [token]

end Sketch

theorem Node.every_of_sound (n : Node) (h : n.sketch.Sound) : n.Every fun m => m.kind ≠ .error := by
  induction n using Node.induct with
  | step n ih =>
      rw [Node.sketch_eq, Sketch.sound_iff] at h
      exact .intro h.1 fun m hm => ih m hm (h.2 _ (List.mem_map_of_mem hm))

namespace Lexeme

/-- The kind of a lexeme of a row, `eof` behind the last one. -/
def kindAt (row : List Lexeme) (i : Nat) : TokenKind := (row[i]?.map kind).getD .eof

@[simp] theorem kindAt_nil (i : Nat) : kindAt [] i = .eof := rfl

@[simp] theorem kindAt_cons_zero (l : Lexeme) (row : List Lexeme) :
    kindAt (l :: row) 0 = l.kind := rfl

@[simp] theorem kindAt_cons_succ (l : Lexeme) (row : List Lexeme) (i : Nat) :
    kindAt (l :: row) (i + 1) = kindAt row i := rfl

end Lexeme

theorem Skim.kindAt_eq_lexeme (tokens : List Token) (i : Nat) :
    kindAt tokens i = Lexeme.kindAt (tokens.map Token.lexeme) i := by
  simp only [kindAt, Lexeme.kindAt, List.getElem?_map, Option.map_map]
  rfl

namespace Look

/-- The answer in front of a row of lexemes, with sketches made so far. -/
def Answers (look : Look) (frame : List Sketch) (row : List Lexeme) (answer : Bool) : Prop :=
  ∀ nodes tokens, nodes.map Node.sketch = frame → tokens.map Token.lexeme = row →
    look.holds nodes tokens = answer

variable {frame : List Sketch} {row : List Lexeme} {kinds : List TokenKind}

theorem Answers.next (h : Lexeme.kindAt row 0 ∈ kinds) : (next kinds).Answers frame row true := by
  rintro nodes tokens - rfl
  rw [holds, kindAt_eq_lexeme]
  exact List.contains_iff_mem.mpr h

theorem Answers.next_not (h : Lexeme.kindAt row 0 ∉ kinds) :
    (Look.next kinds).Answers frame row false := by
  rintro nodes tokens - rfl
  rw [holds, kindAt_eq_lexeme]
  exact Bool.eq_false_iff.mpr fun hmem => h (List.contains_iff_mem.mp hmem)

theorem Answers.second_not (h : Lexeme.kindAt row 1 ∉ kinds) :
    (Look.second kinds).Answers frame row false := by
  rintro nodes tokens - rfl
  rw [holds, kindAt_eq_lexeme]
  exact Bool.eq_false_iff.mpr fun hmem => h (List.contains_iff_mem.mp hmem)

theorem Answers.both_not_left {a b : Look} (h : a.Answers frame row false) :
    (Look.both a b).Answers frame row false := fun nodes tokens hnodes htokens => by
  rw [holds, h nodes tokens hnodes htokens, Bool.false_and]

theorem Answers.both_not_right {a b : Look} (h : b.Answers frame row false) :
    (Look.both a b).Answers frame row false := fun nodes tokens hnodes htokens => by
  rw [holds, h nodes tokens hnodes htokens, Bool.and_false]

theorem Answers.operand {kinds : List NodeKind} (front : List Sketch) {s : Sketch}
    (h : s.kind ∈ kinds) : (Look.operand kinds).Answers (front ++ [s]) row true := by
  rintro nodes tokens hnodes -
  have hlast := congrArg List.getLast? hnodes
  rw [List.getLast?_map, List.getLast?_concat, Option.map_eq_some_iff] at hlast
  obtain ⟨n, hn, rfl⟩ := hlast
  rw [Node.sketch_eq] at h
  simp [holds, hn, h]

end Look

namespace Form

/-- In front of a row of lexemes, with sketches made so far, the form makes others and
leaves a row. -/
def Turns (f : Form) (frame : List Sketch) (row : List Lexeme) (frame' : List Sketch)
    (row' : List Lexeme) : Prop :=
  ∀ nodes c, nodes.map Node.sketch = frame → c.row = row →
    ∃ nodes' c', f.Does Rule.Reads nodes c nodes' c' ∧ nodes'.map Node.sketch = frame' ∧
      c'.row = row'

variable {f g : Form} {frame frame' frame'' : List Sketch} {row row' row'' : List Lexeme}

theorem Turns.done : Form.done.Turns frame row frame row :=
  fun nodes c hnodes hrow => ⟨nodes, c, ⟨rfl, rfl⟩, hnodes, hrow⟩

theorem Turns.take (kind : NodeKind) (l : Lexeme) :
    (Form.take kind).Turns frame (l :: row) (frame ++ [Sketch.leaf kind l]) row := by
  rintro nodes c rfl hrow
  obtain ⟨t, rest, hrest, rfl, rfl⟩ := List.map_eq_cons_iff.mp hrow
  refine ⟨_, _, ⟨rfl, rfl⟩, ?_, ?_⟩
  · rw [List.map_append, Cursor.next_eq hrest]
    rfl
  · rw [Cursor.row, Cursor.rest_advance hrest]

theorem Turns.token (l : Lexeme) :
    Form.token.Turns frame (l :: row) (frame ++ [Sketch.token l]) row := .take .token l

theorem Turns.seq (hf : f.Turns frame row frame' row') (hg : g.Turns frame' row' frame'' row'') :
    (f ++ g).Turns frame row frame'' row'' := by
  intro nodes c hnodes hrow
  obtain ⟨middle, between, hfirst, hmiddle, hbetween⟩ := hf nodes c hnodes hrow
  obtain ⟨nodes', c', hsecond, hnodes', hrow'⟩ := hg middle between hmiddle hbetween
  exact ⟨nodes', c', ⟨middle, between, hfirst, hsecond⟩, hnodes', hrow'⟩

theorem Turns.yes {look : Look} (hlook : look.Answers frame row true)
    (hf : f.Turns frame row frame' row') : (Form.choose look f g).Turns frame row frame' row' := by
  intro nodes c hnodes hrow
  obtain ⟨nodes', c', hdoes, hmade⟩ := hf nodes c hnodes hrow
  exact ⟨nodes', c', .inl ⟨hlook nodes c.rest hnodes hrow, hdoes⟩, hmade⟩

theorem Turns.no {look : Look} (hlook : look.Answers frame row false)
    (hg : g.Turns frame row frame' row') : (Form.choose look f g).Turns frame row frame' row' := by
  intro nodes c hnodes hrow
  obtain ⟨nodes', c', hdoes, hmade⟩ := hg nodes c hnodes hrow
  exact ⟨nodes', c', .inr ⟨hlook nodes c.rest hnodes hrow, hdoes⟩, hmade⟩

theorem Turns.node (kind : NodeKind) (h : f.Turns frame row frame' row') :
    (Form.node kind f).Turns frame row [.node kind frame'] row' := by
  intro nodes c hnodes hrow
  obtain ⟨children, c', hbody, rfl, hrow'⟩ := h nodes c hnodes hrow
  refine ⟨_, c', ⟨children, hbody, rfl⟩, ?_, hrow'⟩
  rw [List.map_singleton, Node.sketch_eq]
  rfl

theorem Turns.within (h : f.Turns [] row frame' row') (frame : List Sketch) :
    (Form.within f).Turns frame row (frame ++ frame') row' := by
  rintro nodes c rfl hrow
  obtain ⟨made, c', hbody, rfl, hrow'⟩ := h [] c rfl hrow
  exact ⟨nodes ++ made, c', ⟨made, hbody, rfl⟩, List.map_append, hrow'⟩

theorem Turns.rule {r : Rule} (h : r.form.Turns frame row frame' row') :
    (Form.rule r).Turns frame row frame' row' := by
  intro nodes c hnodes hrow
  obtain ⟨nodes', c', hdoes, hmade⟩ := h nodes c hnodes hrow
  exact ⟨nodes', c', Rule.Reads.intro hdoes, hmade⟩

theorem Turns.call {r : Rule} (h : (Form.rule r).Turns [] row frame' row') (frame : List Sketch) :
    (Form.call r).Turns frame row (frame ++ frame') row' := h.within frame

theorem Turns.optional {kinds : List TokenKind} (hnext : Lexeme.kindAt row 0 ∈ kinds)
    (h : f.Turns frame row frame' row') : (Form.optional kinds f).Turns frame row frame' row' :=
  .yes (.next hnext) h

theorem Turns.optional_idle {kinds : List TokenKind} (hnext : Lexeme.kindAt row 0 ∉ kinds)
    (f : Form) (frame : List Sketch) : (Form.optional kinds f).Turns frame row frame row :=
  .no (.next_not hnext) .done

theorem Turns.expect {l : Lexeme} {kind : TokenKind} (h : l.kind = kind) :
    (Form.expect kind).Turns frame (l :: row) (frame ++ [Sketch.token l]) row :=
  .yes (.next (by simp [h])) (.token l)

/-- A form that leaves another row, where no sign can be cut, takes a token. -/
theorem Does.taken_ne {nodes nodes' : Frame} {c c' : Cursor} {l : Lexeme}
    (h : f.Does Rule.Reads nodes c nodes' c') (hwhole : l.kind ∉ Cursor.splittable)
    (hc : c.row = l :: row) (hmoved : c'.row ≠ l :: row) : c'.taken ≠ c.taken := by
  intro htaken
  obtain ⟨t, rest, hrest, rfl, -⟩ := List.map_eq_cons_iff.mp hc
  have hcut : Cursor.splittable.contains c.next.kind = false := by
    rw [Cursor.next_eq hrest]
    exact Bool.eq_false_iff.mpr fun h => hwhole (List.contains_iff_mem.mp h)
  have hstayed := (h.onward fun _ _ _ _ _ => Rule.Reads.onward).stayed htaken
  exact hmoved (by rw [← hc, Cursor.row, hstayed.2 hcut, Cursor.row])

/-- The second form is left out where the first takes a token. -/
theorem Turns.ifStuck {l : Lexeme} (hf : f.Turns frame (l :: row) frame' row')
    (hwhole : l.kind ∉ Cursor.splittable) (hmoved : row' ≠ l :: row) :
    (Form.ifStuck f g).Turns frame (l :: row) frame' row' := by
  intro nodes c hnodes hc
  obtain ⟨nodes', c', hdoes, hmade, hc'⟩ := hf nodes c hnodes hc
  have htaken := hdoes.taken_ne hwhole hc (hc' ▸ hmoved)
  exact ⟨nodes', c', ⟨nodes', c', hdoes, .inr ⟨htaken, rfl, rfl⟩⟩, hmade, hc'⟩

/-- The second form is left out where the first takes a token, and what the first makes is put
behind the rest. -/
theorem Turns.orElse {l : Lexeme} (hf : f.Turns [] (l :: row) frame' row')
    (hwhole : l.kind ∉ Cursor.splittable) (hmoved : row' ≠ l :: row) (frame : List Sketch) :
    (Form.orElse f g).Turns frame (l :: row) (frame ++ frame') row' := by
  rintro nodes c rfl hc
  obtain ⟨made, c', hdoes, rfl, hc'⟩ := hf [] c rfl hc
  refine ⟨nodes ++ made, c', ⟨made, c', hdoes, .inr ⟨?_, rfl, rfl⟩⟩, List.map_append, hc'⟩
  exact hdoes.taken_ne hwhole hc (hc' ▸ hmoved)

end Form

end DotCompletion
