import DotCompletion.Proofs.Grammar.WholeInput
import DotCompletion.Proofs.Token.Spaced

/-!
# Places do not matter

The grammar sees of a token its kind and its text, and of a node its kind. Two runs in front of
tokens that differ in their places take the same decisions, and what they make differs in places
only (`Form.Does.alike`). So does what is made of two sources with the same tokens
(`Entry.unplaced_parse`).
-/

namespace DotCompletion

/-! ## Forgetting places -/

/-- The token as if it stood at the origin. -/
def Token.unplaced (t : Token) : Token := ⟨t.kind, .point .origin, t.literal⟩

theorem Token.eq_of_unplaced_eq {t u : Token} (h : t.unplaced = u.unplaced) :
    t.kind = u.kind ∧ t.literal = u.literal := by
  simpa [unplaced] using h

theorem Token.map_unplaced_eq {row row' : List Token}
    (h : row.map Token.lexeme = row'.map Token.lexeme) :
    row.map Token.unplaced = row'.map Token.unplaced := by
  have hlexeme : Token.unplaced = (fun l : Lexeme => ⟨l.kind, .point .origin, l.text⟩) ∘
      Token.lexeme := rfl
  rw [hlexeme, ← List.map_map, h, List.map_map]

/-- The diagnostic as if what was met stood at the origin. -/
def Diagnostic.unplaced (d : Diagnostic) : Diagnostic := ⟨d.problem, d.got.map Token.unplaced⟩

namespace Node

mutual

/-- The tree as if everything in it stood at the origin. -/
def unplaced : Node → Node
  | ⟨kind, _, token, error, children⟩ =>
    ⟨kind, .point .origin, token.map Token.unplaced, error.map Diagnostic.unplaced,
      unplacedAll children⟩

/-- The row of trees as if everything in them stood at the origin. -/
def unplacedAll : List Node → List Node
  | [] => []
  | n :: rest => unplaced n :: unplacedAll rest

end

theorem unplacedAll_eq_map (row : List Node) : unplacedAll row = row.map unplaced := by
  induction row with
  | nil => rfl
  | cons n row ih => rw [unplacedAll, ih, List.map_cons]

theorem unplaced_eq (n : Node) :
    n.unplaced = ⟨n.kind, .point .origin, n.token.map Token.unplaced,
      n.error.map Diagnostic.unplaced, n.children.map unplaced⟩ := by
  cases n
  rw [unplaced, unplacedAll_eq_map]

theorem unplaced_kind (n : Node) : n.unplaced.kind = n.kind := by
  rw [unplaced_eq]

theorem unplaced_leaf (kind : NodeKind) (t : Token) :
    (leaf kind t).unplaced = leaf kind t.unplaced := by
  rw [unplaced_eq]
  rfl

theorem unplaced_missing (p : Position) (d : Diagnostic) :
    (missing p d).unplaced = missing .origin d.unplaced := by
  rw [unplaced_eq]
  rfl

end Node

/-! ## Looking ahead -/

namespace Skim

@[simp] theorem kindAt_unplaced (tokens : List Token) (i : Nat) :
    kindAt (tokens.map Token.unplaced) i = kindAt tokens i := by
  simp only [kindAt, List.getElem?_map, Option.map_map]
  rfl

theorem anyModifier_unplaced (t : Token) (rest : List Token) :
    anyModifier t.unplaced (rest.map Token.unplaced) = anyModifier t rest := by
  simp [anyModifier, Token.unplaced]

theorem variableModifier_unplaced (t : Token) (rest : List Token) :
    variableModifier t.unplaced (rest.map Token.unplaced) = variableModifier t rest := rfl

theorem modifiers_unplaced {starts : Token → List Token → Option ModifierPlace}
    (hstarts : ∀ t rest, starts t.unplaced (rest.map Token.unplaced) = starts t rest)
    (place : ModifierPlace) (tokens : List Token) :
    modifiers starts place (tokens.map Token.unplaced) =
      (modifiers starts place tokens).map Token.unplaced := by
  induction tokens generalizing place with
  | nil => rfl
  | cons t rest ih =>
      have hnext : place.next? starts t.unplaced (rest.map Token.unplaced) =
          place.next? starts t rest := by
        cases place <;> simp only [ModifierPlace.next?, hstarts] <;> rfl
      rw [List.map_cons, modifiers, modifiers, hnext]
      split
      next place' _ => exact ih place'
      next => rfl

theorem typeName?_unplaced (place : TypePlace) (tokens : List Token) :
    typeName? place (tokens.map Token.unplaced) =
      (typeName? place tokens).map (List.map Token.unplaced) := by
  induction tokens generalizing place with
  | nil =>
      rw [List.map_nil, typeName?]
      split <;> rfl
  | cons t rest ih =>
      have hkind : t.unplaced.kind = t.kind := rfl
      rw [List.map_cons, typeName?, typeName?, hkind]
      cases place.step t.kind with
      | go place' => exact ih place'
      | stop => rfl
      | fail => rfl

theorem brackets_unplaced (tokens : List Token) :
    brackets (tokens.map Token.unplaced) = (brackets tokens).map Token.unplaced := by
  fun_induction brackets tokens with
  | case1 | case2 => rfl
  | case3 t u rest hpair ih =>
      rw [List.map_cons, List.map_cons, brackets, if_pos (by exact hpair), ih]
  | case4 t u rest hpair =>
      rw [List.map_cons, List.map_cons, brackets, if_neg (by exact hpair)]

theorem type?_unplaced (withBrackets : Bool) (tokens : List Token) :
    type? withBrackets (tokens.map Token.unplaced) =
      (type? withBrackets tokens).map (List.map Token.unplaced) := by
  rw [type?, type?, kindAt_unplaced, ← List.map_drop, brackets_unplaced, typeName?_unplaced]
  cases (kindAt tokens 0).isPrimitive <;> cases withBrackets <;> rfl

theorem closesBeforeArrow_unplaced (depth : Nat) (tokens : List Token) :
    closesBeforeArrow depth (tokens.map Token.unplaced) = closesBeforeArrow depth tokens := by
  induction tokens generalizing depth with
  | nil => rfl
  | cons t rest ih =>
      cases depth <;> simp only [List.map_cons, closesBeforeArrow, ih, kindAt_unplaced] <;> rfl

theorem castTypes?_unplaced (place : TypePlace) (tokens : List Token) :
    castTypes? place (tokens.map Token.unplaced) =
      (castTypes? place tokens).map (List.map Token.unplaced) := by
  induction tokens generalizing place with
  | nil => rfl
  | cons t rest ih =>
      have hkind : t.unplaced.kind = t.kind := rfl
      rw [List.map_cons, castTypes?, castTypes?, hkind]
      cases place.step t.kind with
      | go place' => exact ih place'
      | stop =>
          change (if t.kind = .amp then _ else if t.kind = .rparen then _ else _) = _
          split
          next => exact ih .part
          next => split <;> rfl
      | fail => rfl

end Skim

open Skim in
theorem Ahead.holds_unplaced (question : Ahead) (tokens : List Token) :
    question.holds (tokens.map Token.unplaced) = question.holds tokens := by
  cases question with
  | lambda => simp only [holds, kindAt_unplaced, ← List.map_drop, closesBeforeArrow_unplaced]
  | cast =>
      simp only [holds, kindAt_unplaced, ← List.map_drop, brackets_unplaced, castTypes?_unplaced]
      cases castTypes? .part (tokens.drop 1) <;> simp
  | localVariable =>
      simp only [holds, modifiers_unplaced variableModifier_unplaced, type?_unplaced]
      cases type? true (modifiers variableModifier .between tokens) <;> simp
  | localClass => simp only [holds, modifiers_unplaced anyModifier_unplaced, kindAt_unplaced]
  | enhancedFor =>
      simp only [holds, modifiers_unplaced anyModifier_unplaced, type?_unplaced]
      cases type? true (modifiers anyModifier .between tokens) <;> simp
  | typePattern =>
      simp only [holds, modifiers_unplaced anyModifier_unplaced, type?_unplaced]
      cases type? false (modifiers anyModifier .between tokens) with
      | none => rfl
      | some rest =>
          simp only [Option.map_some, kindAt_unplaced, List.head?_map, Option.map_map]
          rfl
  | arrayClass => simp only [holds, brackets_unplaced, kindAt_unplaced]
  | arrayReference => simp only [holds, brackets_unplaced, kindAt_unplaced]

theorem Look.holds_unplaced (look : Look) (nodes : List Node) (tokens : List Token) :
    look.holds (nodes.map Node.unplaced) (tokens.map Token.unplaced) = look.holds nodes tokens := by
  induction look with
  | next | second | modifier | annotationStart | typeDecl =>
      simp only [holds, Skim.kindAt_unplaced]
  | spelled word => cases tokens <;> rfl
  | operand kinds =>
      rw [holds, holds, List.getLast?_map, Option.map_map]
      simp only [Function.comp_def, Node.unplaced_kind]
  | ahead question => exact question.holds_unplaced tokens
  | both a b iha ihb | either a b iha ihb => rw [holds, holds, iha, ihb]
  | isNot a ih => rw [holds, holds, ih]

/-! ## Reading -/

namespace Cursor

/-- The tokens ahead of the cursors differ in their places only, and as many have been read. -/
structure Alike (c d : Cursor) : Prop where
  rest : c.rest.map Token.unplaced = d.rest.map Token.unplaced
  eof : c.eof.unplaced = d.eof.unplaced
  taken : c.taken = d.taken

namespace Alike

variable {c d : Cursor}

theorem next (h : c.Alike d) : c.next.unplaced = d.next.unplaced := by
  have hhead := congrArg List.head? h.rest
  rw [List.head?_map, List.head?_map] at hhead
  rw [Cursor.next, Cursor.next]
  cases hc : c.rest.head? <;> cases hd : d.rest.head? <;> rw [hc, hd] at hhead
  · exact h.eof
  · cases hhead
  · cases hhead
  · exact Option.some.inj hhead

theorem next_kind (h : c.Alike d) : c.next.kind = d.next.kind :=
  (Token.eq_of_unplaced_eq h.next).1

theorem advance (h : c.Alike d) : c.advance.Alike d.advance := by
  obtain ⟨hrest, heof, htaken⟩ := h
  unfold Cursor.advance
  cases hc : c.rest <;> cases hd : d.rest <;> rw [hc, hd] at hrest
  · exact ⟨by rw [hc, hd], heof, htaken⟩
  · cases hrest
  · cases hrest
  · exact ⟨(List.cons.inj hrest).2, heof, congrArg (· + 1) htaken⟩

theorem splitAngle (h : c.Alike d) : c.splitAngle.Alike d.splitAngle := by
  obtain ⟨hrest, heof, htaken⟩ := h
  unfold Cursor.splitAngle
  cases hc : c.rest with
  | nil =>
      rw [hc] at hrest
      rw [List.map_eq_nil_iff.mp hrest.symm]
      exact ⟨by rw [hc, List.map_eq_nil_iff.mp hrest.symm], heof, htaken⟩
  | cons t rest =>
      cases hd : d.rest with
      | nil =>
          rw [hc, hd] at hrest
          cases hrest
      | cons u rest' =>
          rw [hc, hd] at hrest
          obtain ⟨hfirst, hrest'⟩ := List.cons.inj hrest
          obtain ⟨hkind, hliteral⟩ := Token.eq_of_unplaced_eq hfirst
          simp only [hkind]
          split
          next =>
              refine ⟨?_, heof, htaken⟩
              simp only [List.map_cons, hrest', behindAngle, hliteral, Token.unplaced]
              rfl
          next => exact ⟨by rw [hc, hd, hrest], heof, htaken⟩

end Alike

end Cursor

namespace Frame

/-- The nodes differ in their places only. -/
def Alike (frame frame' : Frame) : Prop :=
  frame.map Node.unplaced = frame'.map Node.unplaced

namespace Alike

variable {frame frame' nodes nodes' : Frame} {n n' : Node}

theorem append (h : frame.Alike frame') (hnodes : nodes.Alike nodes') :
    (frame ++ nodes).Alike (frame' ++ nodes') := by
  rw [Alike, List.map_append, List.map_append, h, hnodes]

theorem single (h : n.unplaced = n'.unplaced) : Alike [n] [n'] := by
  rw [Alike, List.map_singleton, List.map_singleton, h]

theorem discard (h : frame.Alike frame') (kind : NodeKind) :
    Alike (frame.filter fun n => n.kind != kind) (frame'.filter fun n => n.kind != kind) := by
  have hkind : (fun n : Node => n.kind != kind) =
      (fun n : Node => n.kind != kind) ∘ Node.unplaced := by
    funext n
    rw [Function.comp_apply, Node.unplaced_kind]
  rw [Alike, hkind, ← List.filter_map, ← List.filter_map, h]

end Alike

end Frame

/-- Whatever the rule does, it does the same in front of tokens in other places. -/
def Rule.Mirrored : Behaviour := fun r frame c frame' c' =>
  ∀ other d, frame.Alike other → c.Alike d →
    ∃ other' d', r.Reads other d other' d' ∧ frame'.Alike other' ∧ c'.Alike d'

theorem Form.Does.alike {f : Form} {frame frame' other : Frame} {c c' d : Cursor}
    (h : f.Does Rule.Mirrored frame c frame' c') (hframe : frame.Alike other) (hc : c.Alike d) :
    ∃ other' d', f.Does Rule.Reads other d other' d' ∧ frame'.Alike other' ∧ c'.Alike d' := by
  induction f generalizing frame c frame' c' other d with
  | done =>
      obtain ⟨rfl, rfl⟩ := h
      exact ⟨other, d, ⟨rfl, rfl⟩, hframe, hc⟩
  | take kind =>
      obtain ⟨rfl, rfl⟩ := h
      refine ⟨_, _, ⟨rfl, rfl⟩, hframe.append (.single ?_), hc.advance⟩
      rw [Node.unplaced_leaf, Node.unplaced_leaf, hc.next]
  | missing problem =>
      obtain ⟨rfl, rfl⟩ := h
      refine ⟨_, _, ⟨rfl, rfl⟩, hframe.append (.single ?_), hc⟩
      simp only [Node.unplaced_missing, Diagnostic.unplaced, Option.map_some, hc.next]
  | splitAngle =>
      obtain ⟨rfl, rfl⟩ := h
      exact ⟨_, _, ⟨rfl, rfl⟩, hframe, hc.splitAngle⟩
  | discard kind =>
      obtain ⟨rfl, rfl⟩ := h
      exact ⟨_, _, ⟨rfl, rfl⟩, hframe.discard kind, hc⟩
  | seq first second ihfirst ihsecond =>
      obtain ⟨middle, between, hfirst, hsecond⟩ := h
      obtain ⟨middle', between', hfirst', hmiddle, hbetween⟩ := ihfirst hfirst hframe hc
      obtain ⟨other', d', hsecond', hframe', hc'⟩ := ihsecond hsecond hmiddle hbetween
      exact ⟨other', d', ⟨middle', between', hfirst', hsecond'⟩, hframe', hc'⟩
  | choose look yes no ihyes ihno =>
      have hlook : look.holds frame c.rest = look.holds other d.rest := by
        rw [← look.holds_unplaced frame, ← look.holds_unplaced other, hframe, hc.rest]
      rcases h with ⟨htrue, hyes⟩ | ⟨hfalse, hno⟩
      · obtain ⟨other', d', hyes', hmade⟩ := ihyes hyes hframe hc
        exact ⟨other', d', .inl ⟨hlook ▸ htrue, hyes'⟩, hmade⟩
      · obtain ⟨other', d', hno', hmade⟩ := ihno hno hframe hc
        exact ⟨other', d', .inr ⟨hlook ▸ hfalse, hno'⟩, hmade⟩
  | enclose label body ih =>
      obtain ⟨children, hbody, rfl⟩ := h
      obtain ⟨children', d', hbody', hchildren, hc'⟩ := ih hbody hframe hc
      refine ⟨_, d', ⟨children', hbody', rfl⟩, .single ?_, hc'⟩
      have hdiagnose : (label.diagnose c.next).map Diagnostic.unplaced =
          (label.diagnose d.next).map Diagnostic.unplaced := by
        have hnext := hc.next
        have hkind := hc.next_kind
        cases label with
        | plain => rfl
        | fault cause => cases cause <;> simp [Label.diagnose, Fault.diagnose, Diagnostic.unplaced,
            hnext, hkind]
      rw [Node.unplaced_eq, Node.unplaced_eq]
      simp only [Node.around, hdiagnose]
      rw [show children.map Node.unplaced = children'.map Node.unplaced from hchildren]
  | within body ih =>
      obtain ⟨nodes, hbody, rfl⟩ := h
      obtain ⟨nodes', d', hbody', hnodes, hc'⟩ := ih hbody rfl hc
      exact ⟨_, d', ⟨nodes', hbody', rfl⟩, hframe.append hnodes, hc'⟩
  | orElse first second ihfirst ihsecond =>
      obtain ⟨nodes, between, hfirst, hrest⟩ := h
      obtain ⟨nodes', between', hfirst', hnodes, hbetween⟩ := ihfirst hfirst rfl hc
      have htaken : between.taken = c.taken ↔ between'.taken = d.taken := by
        rw [hbetween.taken, hc.taken]
      rcases hrest with ⟨hstayed, hsecond⟩ | ⟨hmoved, rfl, rfl⟩
      · obtain ⟨other', d', hsecond', hmade⟩ := ihsecond hsecond hframe hbetween
        exact ⟨other', d', ⟨nodes', between', hfirst', .inl ⟨htaken.mp hstayed, hsecond'⟩⟩, hmade⟩
      · exact ⟨_, _, ⟨nodes', between', hfirst', .inr ⟨mt htaken.mpr hmoved, rfl, rfl⟩⟩,
          hframe.append hnodes, hbetween⟩
  | ifStuck first second ihfirst ihsecond =>
      obtain ⟨middle, between, hfirst, hrest⟩ := h
      obtain ⟨middle', between', hfirst', hmiddle, hbetween⟩ := ihfirst hfirst hframe hc
      have htaken : between.taken = c.taken ↔ between'.taken = d.taken := by
        rw [hbetween.taken, hc.taken]
      rcases hrest with ⟨hstayed, hsecond⟩ | ⟨hmoved, rfl, rfl⟩
      · obtain ⟨other', d', hsecond', hmade⟩ := ihsecond hsecond hmiddle hbetween
        exact ⟨other', d', ⟨middle', between', hfirst', .inl ⟨htaken.mp hstayed, hsecond'⟩⟩, hmade⟩
      · exact ⟨_, _, ⟨middle', between', hfirst', .inr ⟨mt htaken.mpr hmoved, rfl, rfl⟩⟩, hmiddle,
          hbetween⟩
  | rule name => exact h other d hframe hc

theorem Rule.Reads.mirrored {r : Rule} {frame frame' : Frame} {c c' : Cursor}
    (h : r.Reads frame c frame' c') : r.Mirrored frame c frame' c' :=
  h.induct Rule.Mirrored fun _ _ _ _ _ hform other d hframe hc => by
    obtain ⟨other', d', hdoes, hmade⟩ := hform.alike hframe hc
    exact ⟨other', d', .intro hdoes, hmade⟩

theorem Cursor.alike_ofSource {source source' : Bytes}
    (h : (Token.significant source).map Token.lexeme =
      (Token.significant source').map Token.lexeme) :
    (ofSource source).Alike (ofSource source') where
  rest := Token.map_unplaced_eq h
  eof := rfl
  taken := rfl

/-- The trees of two sources with the same tokens differ in their places only. -/
theorem Entry.unplaced_parse {source source' : Bytes}
    (h : (Token.significant source).map Token.lexeme =
      (Token.significant source').map Token.lexeme) (entry : Entry) :
    (entry.parse source).unplaced = (entry.parse source').unplaced := by
  obtain ⟨frame, c, hread⟩ := entry.read?_isSome source
  obtain ⟨frame', c', hread'⟩ := entry.read?_isSome source'
  obtain ⟨node, rfl⟩ := entry.read?_eq_singleton hread
  obtain ⟨node', rfl⟩ := entry.read?_eq_singleton hread'
  have hreads : entry.rule.Reads [] (Cursor.ofSource source) [node] c := ⟨_, hread⟩
  have hreads' : entry.rule.Reads [] (Cursor.ofSource source') [node'] c' := ⟨_, hread'⟩
  obtain ⟨other, d, hother, halike, -⟩ := hreads.mirrored [] _ rfl (Cursor.alike_ofSource h)
  obtain ⟨rfl, -⟩ := hother.unique hreads'
  rw [parse, parse, hread, hread']
  exact List.singleton_inj.mp halike

end DotCompletion
