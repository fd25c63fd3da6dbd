import DotCompletion.Proofs.Grammar.WholeInput
import DotCompletion.Proofs.Node.Yield

/-!
# Properties of nodes as they are made

There are three ways to make a node: a leaf of the next token, an empty node for something
missing, and a node around the nodes of a frame. A property that each of them gives to the node,
in front of any tokens that reading can get to, holds of all nodes of a tree
(`Entry.parse_every`).
-/

namespace DotCompletion

/-- Every node made at a cursor with the property `I` has the property `P`, and reading keeps
`I`. -/
structure Making (I : Cursor → Prop) (P : Node → Prop) : Prop where
  advance : ∀ {c}, I c → I c.advance
  splitAngle : ∀ {c}, I c → I c.splitAngle
  leaf : ∀ {c} kind, I c → P (.leaf kind c.next)
  missing : ∀ {c} problem, I c → P (.missing c.behind ⟨problem, some c.next⟩)
  around : ∀ {c} (label : Label) {children}, I c → (∀ n ∈ children, P n) →
    P (.around label.kind (label.diagnose c.next) c.next.span.start children)

/-- The cursor keeps its property, and the nodes of the frame keep theirs. -/
def KeepsNodes (I : Cursor → Prop) (P : Node → Prop) : Behaviour := fun _ frame c frame' c' =>
  I c → (∀ n ∈ frame, n.Every P) → I c' ∧ ∀ n ∈ frame', n.Every P

section

variable {I : Cursor → Prop} {P : Node → Prop} {frame frame' nodes : Frame} {c c' : Cursor}

theorem Form.Does.keepsNodes {f : Form} (hmaking : Making I P)
    (h : f.Does (KeepsNodes I P) frame c frame' c') (hc : I c)
    (hframe : ∀ n ∈ frame, n.Every P) : I c' ∧ ∀ n ∈ frame', n.Every P := by
  induction f generalizing frame c frame' c' with
  | done =>
      obtain ⟨rfl, rfl⟩ := h
      exact ⟨hc, hframe⟩
  | take kind =>
      obtain ⟨rfl, rfl⟩ := h
      refine ⟨hmaking.advance hc, Node.EveryIn.append hframe ?_⟩
      exact List.forall_mem_singleton.mpr (.leaf (hmaking.leaf kind hc))
  | missing problem =>
      obtain ⟨rfl, rfl⟩ := h
      refine ⟨hc, Node.EveryIn.append hframe ?_⟩
      exact List.forall_mem_singleton.mpr (.missing (hmaking.missing problem hc))
  | splitAngle =>
      obtain ⟨rfl, rfl⟩ := h
      exact ⟨hmaking.splitAngle hc, hframe⟩
  | discard kind =>
      obtain ⟨rfl, rfl⟩ := h
      exact ⟨hc, fun n hn => hframe n (List.mem_of_mem_filter hn)⟩
  | seq first second ihfirst ihsecond =>
      obtain ⟨middle, between, hfirst, hsecond⟩ := h
      obtain ⟨hbetween, hmiddle⟩ := ihfirst hfirst hc hframe
      exact ihsecond hsecond hbetween hmiddle
  | choose look yes no ihyes ihno =>
      rcases h with ⟨_, hyes⟩ | ⟨_, hno⟩
      · exact ihyes hyes hc hframe
      · exact ihno hno hc hframe
  | enclose label body ih =>
      obtain ⟨children, hbody, rfl⟩ := h
      obtain ⟨hc', hchildren⟩ := ih hbody hc hframe
      refine ⟨hc', List.forall_mem_singleton.mpr (.intro ?_ hchildren)⟩
      exact hmaking.around label hc fun n hn => (hchildren n hn).own
  | within body ih =>
      obtain ⟨nodes, hbody, rfl⟩ := h
      obtain ⟨hc', hnodes⟩ := ih hbody hc nofun
      exact ⟨hc', Node.EveryIn.append hframe hnodes⟩
  | orElse first second ihfirst ihsecond =>
      obtain ⟨nodes, between, hfirst, hrest⟩ := h
      obtain ⟨hbetween, hnodes⟩ := ihfirst hfirst hc nofun
      rcases hrest with ⟨_, hsecond⟩ | ⟨_, rfl, rfl⟩
      · exact ihsecond hsecond hbetween hframe
      · exact ⟨hbetween, Node.EveryIn.append hframe hnodes⟩
  | ifStuck first second ihfirst ihsecond =>
      obtain ⟨middle, between, hfirst, hrest⟩ := h
      obtain ⟨hbetween, hmiddle⟩ := ihfirst hfirst hc hframe
      rcases hrest with ⟨_, hsecond⟩ | ⟨_, rfl, rfl⟩
      · exact ihsecond hsecond hbetween hmiddle
      · exact ⟨hbetween, hmiddle⟩
  | rule name => exact h hc hframe

theorem Rule.Reads.keepsNodes {r : Rule} (hmaking : Making I P)
    (h : r.Reads frame c frame' c') : KeepsNodes I P r frame c frame' c' :=
  h.induct (KeepsNodes I P) fun _ _ _ _ _ hform hc hframe => hform.keepsNodes hmaking hc hframe

/-- What every way to make a node gives to it holds of all nodes of a tree. -/
theorem Entry.parse_every (hmaking : Making I P) {source : Bytes}
    (hstart : I (Cursor.ofSource source)) (entry : Entry) : (entry.parse source).Every P := by
  obtain ⟨frame, c, hread⟩ := entry.read?_isSome source
  obtain ⟨node, rfl⟩ := Entry.read?_eq_singleton hread
  obtain ⟨-, hframe⟩ := Rule.Reads.keepsNodes hmaking ⟨_, hread⟩ hstart nofun
  simp only [Entry.parse, hread]
  exact hframe node List.mem_cons_self

end

end DotCompletion
