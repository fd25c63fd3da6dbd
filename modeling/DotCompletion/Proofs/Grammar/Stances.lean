import Mathlib.Data.List.Lattice
import DotCompletion.Proofs.Grammar.Retention
import DotCompletion.Proofs.Grammar.Skims
import DotCompletion.Proofs.Grammar.SpanRows

/-!
# Stances

What is known of a frame and of the tokens ahead is a `Stance`. Each form leads from a stance to a
few others, and is refused where a row of spans might break (`Form.flow`). So a form that is not
refused makes only nodes that nest, or of which it is known why they do not, if the rules in it do
(`Form.Does.reaches`).
-/

namespace DotCompletion

open Skim (kindAt isAnnotationStart isModifier isTypeDecl brackets)

/-! ## Stances -/

/-- How many tokens are known to be ahead. -/
inductive Supply where
  /-- The input has ended. -/
  | ended
  /-- There is a token at least. -/
  | one
  /-- There are two at least. -/
  | two
deriving DecidableEq, Repr

/-- What a look told about the tokens ahead. -/
inductive Hint where
  | notBrace
  /-- A modifier or an annotation comes next. -/
  | modifiers
  | modifier
  /-- The declaration of a type comes next. -/
  | declaration
  /-- The declaration of a type comes behind the modifiers and annotations. -/
  | behindModifiers
  /-- So many tokens come behind the pairs of square brackets. -/
  | behindPairs (supply : Supply)
deriving DecidableEq, Repr

/-- What is known of a frame and of the tokens ahead. -/
structure Stance where
  supply : Supply
  hint : Option Hint
  based : Bool
  level : Level
deriving DecidableEq, Repr

def Supply.Holds (tokens : List Token) : Supply → Prop
  | ended => tokens = []
  | one => tokens ≠ []
  | two => 2 ≤ tokens.length

def Hint.Holds (tokens : List Token) : Hint → Prop
  | notBrace => kindAt tokens 0 ≠ .rbrace
  | modifiers => isAnnotationStart (kindAt tokens 0) (kindAt tokens 1) = true ∨
      isModifier (kindAt tokens 0) (kindAt tokens 1) = true
  | modifier => isModifier (kindAt tokens 0) (kindAt tokens 1) = true
  | declaration => isTypeDecl (kindAt tokens 0) (kindAt tokens 1) = true
  | behindModifiers =>
    isTypeDecl (kindAt (Skim.modifiers Skim.anyModifier .between tokens) 0)
      (kindAt (Skim.modifiers Skim.anyModifier .between tokens) 1) = true
  | behindPairs supply => supply.Holds (brackets tokens)

namespace Stance

/-- What is known is true. -/
structure Holds (s : Stance) (frame : Frame) (c : Cursor) : Prop where
  supply : s.supply.Holds c.rest
  hint : ∀ hint ∈ s.hint, hint.Holds c.rest
  based : s.based = true → frame.Based c
  level : s.level.Holds frame c

/-- The first tells all that the second does. -/
def implies (s t : Stance) : Bool :=
  (s.supply = t.supply || (s.supply = .two && t.supply = .one))
    && (t.hint = none || s.hint = t.hint)
    && (s.based || !t.based)
    && (s.level = t.level || (s.supply = .ended && s.level = .aligned && t.level = .raised))

/-- In front of the same tokens with an empty frame. -/
def fresh (s : Stance) : Stance := { s with based := false, level := .aligned }

/-- A leaf is made of the next token. -/
def take (s : Stance) : Option (List Stance) :=
  if s.supply = .ended then
    if s.level = .aligned ∨ s.level = .raised then
      some [⟨.ended, none, s.based, .raised⟩]
    else none
  else if s.level = .aligned ∨ s.level = .marked then
    some (⟨.one, none, true, .aligned⟩ ::
      if s.supply = .two then [] else [⟨.ended, none, true, .aligned⟩])
  else none

/-- An error stands for a token. -/
def missing (s : Stance) : Option Stance :=
  match s.level with
  | .aligned => some { s with based := true }
  | .marked => some { s with level := .torn }
  | .raised | .sunk => some { s with level := .sunk }
  | .torn => none

/-- Some nodes are dropped. -/
def discard (s : Stance) : Option Stance :=
  if s.level = .aligned then some { s with based := false } else none

/-- One node is made of the frame that `start` led to. -/
def close (label : Label) (start s : Stance) : Option Stance :=
  match s.level with
  | .aligned =>
    if s.based then some s
    else if start.supply = .ended then some { s with level := .raised } else none
  | .raised => if s.based ∨ start.supply = .ended then some s else none
  | .sunk =>
    if s.based ∧ label.kind ∈ NodeKind.mayEndEarly then some { s with level := .aligned } else none
  | .torn =>
    if s.based ∧ label.kind = .referenceExpr then some { s with level := .aligned } else none
  | .marked => none

/-- The nodes of the second stance are put behind those of the first. -/
def join (s t : Stance) : Option Stance :=
  if s.level = .aligned ∧ (t.level = .aligned ∨ t.level = .raised ∨ t.level = .sunk) then
    some { t with based := s.based || t.based }
  else if (s.level = .raised ∨ s.level = .sunk) ∧
      ((t.level = .aligned ∧ t.based = true) ∨ t.level = .sunk) then
    some { t with based := s.based, level := .sunk }
  else none

/-- The stances of both lists, if none was refused. -/
def merge : Option (List Stance) → Option (List Stance) → Option (List Stance)
  | some ss, some ts => some (ss ∪ ts)
  | _, _ => none

/-- What the stances of a list lead to, if none is refused. -/
def collect (go : Stance → Option (List Stance)) : List Stance → Option (List Stance)
  | [] => some []
  | s :: rest => merge (go s) (collect go rest)

end Stance

/-- What is known behind a look with the given answer; nothing if there is no such answer. -/
def Look.given (look : Look) (answer : Bool) (s : Stance) : Option Stance :=
  if s.supply = .ended then
    if look.frameless && look.holds [] [] != answer then none else some s
  else match look, answer with
  | next [kind], true =>
    if kind = .eof ∨ (kind = .rbrace ∧ s.hint = some .notBrace) then none
    else some { s with
      supply := if kind = .atSign ∧ s.hint = some .declaration then .two else s.supply }
  | next (kind :: _), false =>
    some { s with hint := if kind = .rbrace then some .notBrace else s.hint }
  | second kinds, true | both _ (second kinds), true =>
    some { s with supply := if kinds.contains .eof then s.supply else .two }
  | either annotationStart modifier, true => some { s with hint := some .modifiers }
  | annotationStart, false =>
    some { s with hint := if s.hint = some .modifiers then some .modifier else s.hint }
  | modifier, false => if s.hint = some .modifier then none else some s
  | typeDecl, true => some { s with hint := some .declaration }
  | ahead .localClass, true => some { s with hint := some .behindModifiers }
  | ahead .arrayClass, true => some { s with hint := some (.behindPairs .two) }
  | ahead .arrayReference, true => some { s with hint := some (.behindPairs .one) }
  | _, _ => some s

namespace Form

/-- Empty type arguments. -/
def isMark : Form → Bool
  | enclose (.plain kind) done => kind = .referenceParameterList
  | _ => false

/-- The stances that the form leads to, if rules lead to what `exits` says. -/
def flow (exits : Rule → Stance → Option (List Stance)) : Form → Stance → Option (List Stance)
  | done, s => some [s]
  | take _, s => s.take
  | missing _, s => s.missing.map ([·])
  | splitAngle, s => some [{ s with hint := none }]
  | discard _, s => s.discard.map ([·])
  | seq first second, s => (first.flow exits s).bind (Stance.collect (second.flow exits))
  | choose look yes no, s =>
    Stance.merge (((look.given true s).map (yes.flow exits)).getD (some []))
      (((look.given false s).map (no.flow exits)).getD (some []))
  | enclose label body, s =>
    (body.flow exits s).bind (Stance.collect fun t => (Stance.close label s t).map ([·]))
  | within body, s =>
    if body.isMark then
      if s.level = .aligned then some [{ s with level := .marked }] else none
    else (body.flow exits s.fresh).bind (Stance.collect fun t => (s.join t).map ([·]))
  | orElse first second, s =>
    -- at the end of the input nothing is taken, and the nodes of the first form are forgotten
    if s.supply = .ended then second.flow exits s
    else (first.flow exits s.fresh).bind (Stance.collect fun t =>
      Stance.merge ((s.join t).map ([·]))
        (if t.supply = .ended then some []
         else second.flow exits { t with based := s.based, level := s.level }))
  | ifStuck first second, s =>
    (first.flow exits s).bind (Stance.collect fun t =>
      Stance.merge (if s.supply = .ended then some [] else some [t])
        (if t.supply = .ended ∧ s.supply ≠ .ended then some [] else second.flow exits t))
  | rule name, s => exits name s

end Form

/-! ## What holds of stances -/

theorem Skim.lt_length_of_kindAt {tokens : List Token} {i : Nat} (h : kindAt tokens i ≠ .eof) :
    i < tokens.length := by
  by_contra hle
  exact h (by rw [kindAt, List.getElem?_eq_none (Nat.le_of_not_lt hle)]; rfl)

namespace Cursor

/-- Without a token taken the cursor stands in the same place. -/
theorem Onward.stands {c c' : Cursor} (h : Onward c c') (htaken : c'.taken = c.taken) :
    c'.behind = c.behind ∧ c'.next.lo = c.next.lo := by
  obtain ⟨hstart, hlast⟩ := h.place htaken
  refine ⟨?_, congrArg Position.offset hstart⟩
  rw [Cursor.behind, Cursor.behind, hlast, hstart]

theorem length_le_splitAngle (c : Cursor) : c.rest.length ≤ c.splitAngle.rest.length := by
  unfold Cursor.splitAngle
  split
  next => exact Nat.le_refl _
  next t rest hrest =>
      split
      next => rw [hrest]; exact Nat.le_succ _
      next => exact Nat.le_refl _

/-- Nothing is taken behind the last token. -/
theorem Onward.taken_eq {c c' : Cursor} (h : Onward c c') (hsolid : c.Solid) (hrest : c.rest = []) :
    c'.taken = c.taken :=
  by_contra fun htaken => h.rest_ne_nil hsolid htaken hrest

end Cursor

namespace Stance

open Cursor (Onward Further)

variable {source : Bytes} {frame nodes : Frame} {c c' : Cursor} {s t u : Stance}
  {ss ts outs : List Stance} {label : Label}

theorem merge_eq_some {a b : Option (List Stance)} (h : merge a b = some outs) :
    ∃ ss ts, a = some ss ∧ b = some ts ∧ ss ⊆ outs ∧ ts ⊆ outs := by
  cases a with
  | none => cases h
  | some ss =>
      cases b with
      | none => cases h
      | some ts =>
          cases h
          exact ⟨ss, ts, rfl, rfl, fun _ hs => List.mem_union_left hs _,
            fun _ ht => List.mem_union_right _ ht⟩

theorem collect_eq_some {go : Stance → Option (List Stance)} (h : collect go ss = some outs)
    (hs : s ∈ ss) : ∃ ts, go s = some ts ∧ ts ⊆ outs := by
  induction ss generalizing outs with
  | nil => cases hs
  | cons s' rest ih =>
      obtain ⟨ts, us, hfirst, hrest, hts, hus⟩ := merge_eq_some h
      rcases List.mem_cons.mp hs with rfl | hs
      · exact ⟨ts, hfirst, hts⟩
      · obtain ⟨ts', hgo, hts'⟩ := ih hrest hs
        exact ⟨ts', hgo, List.Subset.trans hts' hus⟩

namespace Holds

theorem rest_eq_nil (h : s.Holds frame c) (hs : s.supply = .ended) : c.rest = [] := by
  have hsupply := h.supply
  rwa [hs] at hsupply

theorem rest_ne_nil (h : s.Holds frame c) (hs : s.supply ≠ .ended) : c.rest ≠ [] := by
  have hsupply := h.supply
  cases hcase : s.supply with
  | ended => exact absurd hcase hs
  | one => rwa [hcase] at hsupply
  | two =>
      rw [hcase] at hsupply
      exact List.ne_nil_of_length_pos (Nat.lt_of_lt_of_le Nat.zero_lt_two hsupply)

theorem fresh (h : s.Holds frame c) : s.fresh.Holds [] c where
  supply := h.supply
  hint := h.hint
  based := nofun
  level := Frame.Aligned.nil c

/-- The cursor stays in its place, and what is ahead is known from elsewhere. -/
theorem stay (h : s.Holds frame c) (ht : t.Holds nodes c') (hbehind : c'.behind = c.behind)
    (hnext : c'.next.lo = c.next.lo) (hrest : c.rest = [] → c'.rest = []) :
    Stance.Holds { t with based := s.based, level := s.level } frame c' where
  supply := ht.supply
  hint := ht.hint
  based := fun hbased => by
    obtain ⟨first, hfirst, hle⟩ := h.based hbased
    exact ⟨first, hfirst, by rw [hbehind]; exact hle⟩
  level := h.level.congr hbehind hnext hrest

theorem same (h : s.Holds frame c) (hrest : c'.rest = c.rest) (hbehind : c'.behind = c.behind)
    (hnext : c'.next.lo = c.next.lo) : s.Holds frame c' := by
  have hfresh : s.fresh.Holds [] c' :=
    ⟨by rw [hrest]; exact h.supply, by rw [hrest]; exact h.hint, nofun, Frame.Aligned.nil c'⟩
  have hstay := h.stay hfresh hbehind hnext fun hend => hrest.trans hend
  exact hstay

theorem splitAngle (h : s.Holds frame c) (hplaced : c.Placed source) :
    Stance.Holds { s with hint := none } frame c.splitAngle := by
  obtain ⟨_, hbehind, hnext⟩ := hplaced.splitAngle
  have honward := Cursor.onward_splitAngle c
  have hfresh : Stance.Holds { s.fresh with hint := none } [] c.splitAngle := by
    refine ⟨?_, nofun, nofun, Frame.Aligned.nil _⟩
    have hsupply := h.supply
    change s.supply.Holds _
    cases hcase : s.supply with
    | ended => exact honward.ended (h.rest_eq_nil hcase)
    | one =>
        have hrest := h.rest_ne_nil (by rw [hcase]; exact nofun)
        exact fun hnil => hrest ((honward.stayed c.splitAngle_taken).1 hnil)
    | two =>
        rw [hcase] at hsupply
        exact Nat.le_trans hsupply c.length_le_splitAngle
  exact h.stay hfresh hbehind hnext honward.ended

theorem mark (h : s.Holds frame c) (hs : s.level = .aligned) (error : Option Diagnostic) :
    Stance.Holds { s with level := .marked }
      (frame ++ [Node.around .referenceParameterList error c.next.span.start []]) c := by
  have hlevel := h.level
  rw [hs] at hlevel
  exact ⟨h.supply, h.hint, fun hbased => (h.based hbased).append (Nat.le_refl _), hlevel.mark error⟩

theorem imp (h : s.Holds frame c) (hst : s.implies t = true) : t.Holds frame c := by
  simp only [implies, Bool.and_eq_true, Bool.or_eq_true, decide_eq_true_eq,
    Bool.not_eq_true'] at hst
  obtain ⟨⟨⟨hsupply, hhint⟩, hbased⟩, hlevel⟩ := hst
  refine ⟨?_, ?_, ?_, ?_⟩
  · rcases hsupply with hsupply | ⟨htwo, hone⟩
    · exact hsupply ▸ h.supply
    · rw [hone]
      exact h.rest_ne_nil (by rw [htwo]; nofun)
  · rcases hhint with hhint | hhint
    · rw [hhint]
      exact nofun
    · exact hhint ▸ h.hint
  · intro ht
    rcases hbased with hbased | hbased
    · exact h.based hbased
    · rw [ht] at hbased
      cases hbased
  · rcases hlevel with hlevel | ⟨⟨hended, hs⟩, ht⟩
    · exact hlevel ▸ h.level
    · have hlevel := h.level
      rw [hs] at hlevel
      rw [ht]
      exact hlevel.raise (h.rest_eq_nil hended)

theorem take (h : s.Holds frame c) (hplaced : c.Placed source) (htake : s.take = some outs)
    (kind : NodeKind) : ∃ t ∈ outs, t.Holds (frame ++ [Node.leaf kind c.next]) c.advance := by
  have hlevel := h.level
  unfold Stance.take at htake
  split at htake
  next hended =>
      have hrest := h.rest_eq_nil hended
      split at htake
      next hs =>
          cases htake
          refine ⟨_, List.mem_singleton_self _, ⟨?_, nofun, fun hbased => ?_, ?_⟩⟩
          · change c.advance.rest = []
            rw [Cursor.advance_rest, hrest]
            rfl
          · exact (h.based hbased).append hplaced.advance.2.1.behind
          · exact hlevel.leaf_end hplaced hrest hs kind
      next => cases htake
  next hended =>
      have hrest := h.rest_ne_nil hended
      split at htake
      next hs =>
          cases htake
          have haligned := hlevel.leaf hplaced hrest hs kind
          have hbased := haligned.based (by simp)
          by_cases hnil : c.advance.rest = []
          · have hone : s.supply ≠ .two := by
              intro htwo
              have hsupply := h.supply
              rw [htwo] at hsupply
              have hlength : c.rest.length - 1 = 0 := by
                rw [← List.length_tail, ← Cursor.advance_rest, hnil]
                rfl
              change 2 ≤ c.rest.length at hsupply
              omega
            refine ⟨⟨.ended, none, true, .aligned⟩, ?_, hnil, nofun, fun _ => hbased, haligned⟩
            rw [if_neg hone]
            exact List.mem_cons_of_mem _ (List.mem_singleton_self _)
          · exact ⟨_, List.mem_cons_self, hnil, nofun, fun _ => hbased, haligned⟩
      next => cases htake

theorem missing (h : s.Holds frame c) (hmissing : s.missing = some t) (d : Diagnostic) :
    t.Holds (frame ++ [Node.missing c.behind d]) c := by
  have hlevel := h.level
  have hbased : s.based = true → Frame.Based (frame ++ [Node.missing c.behind d]) c :=
    fun hs => (h.based hs).append (Nat.le_refl _)
  unfold Stance.missing at hmissing
  split at hmissing
  next hs =>
      cases hmissing
      rw [hs] at hlevel
      have haligned := Level.Holds.missing hlevel d
      exact ⟨h.supply, h.hint, fun _ => haligned.based (by simp), by rw [hs]; exact haligned⟩
  next hs =>
      cases hmissing
      rw [hs] at hlevel
      exact ⟨h.supply, h.hint, hbased, hlevel.missing_torn d⟩
  next hs =>
      cases hmissing
      rw [hs] at hlevel
      exact ⟨h.supply, h.hint, hbased, Level.Holds.missing_sunk (.inl hlevel) d⟩
  next hs =>
      cases hmissing
      rw [hs] at hlevel
      exact ⟨h.supply, h.hint, hbased, Level.Holds.missing_sunk (.inr hlevel) d⟩
  next => cases hmissing

theorem discard (h : s.Holds frame c) (hdiscard : s.discard = some t) (keep : Node → Bool) :
    t.Holds (frame.filter keep) c := by
  have hlevel := h.level
  unfold Stance.discard at hdiscard
  split at hdiscard
  next hs =>
      cases hdiscard
      rw [hs] at hlevel
      exact ⟨h.supply, h.hint, nofun, by rw [hs]; exact hlevel.sublist List.filter_sublist⟩
  next => cases hdiscard

/-- One node is made of the frame. -/
theorem close (hs : s.Holds frame c) (honward : Onward c c') (hsolid : c.Solid)
    (ht : t.Holds nodes c') (hplaced : c'.Placed source) (hclose : Stance.close label s t = some u)
    (error : Option Diagnostic) :
    u.Holds [.around label.kind error c.next.span.start nodes] c' ∧
      (Node.around label.kind error c.next.span.start nodes).Accounted source := by
  have hlevel := ht.level
  have hnode : ∀ {level : Level},
      level.Holds [.around label.kind error c.next.span.start nodes] c' →
        Stance.Holds { t with level := level }
          [.around label.kind error c.next.span.start nodes] c' :=
    fun hlevel => ⟨ht.supply, ht.hint, fun hbased => (ht.based hbased).around, hlevel⟩
  have hplace : s.supply = .ended → c.next.span.start.offset = c'.next.lo := fun hended =>
    (honward.stands (honward.taken_eq hsolid (hs.rest_eq_nil hended))).2.symm
  unfold Stance.close at hclose
  split at hclose
  next hcase =>
      rw [hcase] at hlevel
      refine ⟨?_, hlevel.accounted hplaced nofun nofun⟩
      split at hclose
      next hbased =>
          cases hclose
          have haligned := hnode (hlevel.around (ht.based hbased) (.inl rfl))
          rwa [← hcase] at haligned
      next =>
          split at hclose
          next hended =>
              cases hclose
              have hrest := honward.ended (hs.rest_eq_nil hended)
              exact hnode ((hlevel.raise hrest).around_end fun _ => hplace hended)
          next => cases hclose
  next hcase =>
      rw [hcase] at hlevel
      refine ⟨?_, hlevel.accounted hplaced nofun nofun⟩
      split at hclose
      next hor =>
          cases hclose
          have hraised := hnode (hlevel.around_end fun hnil =>
            hor.elim (fun hbased => absurd hnil (ht.based hbased).ne_nil) hplace)
          rwa [← hcase] at hraised
      next => cases hclose
  next hcase =>
      rw [hcase] at hlevel
      split at hclose
      next hand =>
          cases hclose
          exact ⟨hnode (hlevel.around (ht.based hand.1) (.inr (.inr rfl))),
            hlevel.accounted hplaced nofun fun _ => hand.2⟩
      next => cases hclose
  next hcase =>
      rw [hcase] at hlevel
      split at hclose
      next hand =>
          cases hclose
          exact ⟨hnode (hlevel.around (ht.based hand.1) (.inr (.inl rfl))),
            hlevel.accounted hplaced (fun _ => hand.2) nofun⟩
      next => cases hclose
  next => cases hclose

/-- Nodes are put behind the frame. -/
theorem join (hs : s.Holds frame c) (ht : t.Holds nodes c') (honward : Onward c c')
    (hsolid : c.Solid) (hrests : Frame.Rests source c.behind.offset c.next.lo nodes c')
    (hjoin : s.join t = some u) : u.Holds (frame ++ nodes) c' := by
  have hlevel := hs.level
  have hlevel' := ht.level
  have hbehind := hrests.edge_le
  have hge : ∀ n ∈ nodes, c.behind.offset ≤ n.lo ∧ c.behind.offset ≤ n.hi :=
    fun n hn => (hrests.spans n hn).1
  unfold Stance.join at hjoin
  split at hjoin
  next hcase =>
      cases hjoin
      rw [hcase.1] at hlevel
      refine ⟨ht.supply, ht.hint, fun hbased => ?_,
        hlevel.append hlevel' hcase.2 hbehind fun n hn => (hge n hn).1⟩
      rcases Bool.or_eq_true_iff.mp hbased with hbased | hbased
      · exact (hs.based hbased).append hbehind
      · exact Frame.Aligned.based_append hlevel (ht.based hbased) hbehind
  next =>
      split at hjoin
      next hcase =>
          cases hjoin
          have hend : Level.raised.Holds frame c ∨ Level.sunk.Holds frame c :=
            hcase.1.imp (fun hcase => by rwa [hcase] at hlevel)
              fun hcase => by rwa [hcase] at hlevel
          have hrest := Level.rest_eq_nil hend
          obtain ⟨hbehindEq, hnextEq⟩ := honward.stands (honward.taken_eq hsolid hrest)
          refine ⟨ht.supply, ht.hint, fun hbased => (hs.based hbased).append hbehind,
            Level.Holds.append_end hend ?_ (honward.ended hrest) hbehindEq hnextEq hge⟩
          rcases hcase.2 with ⟨hcase, hbased⟩ | hcase
          · rw [hcase] at hlevel'
            exact .inl ⟨hlevel', (ht.based hbased).ne_nil⟩
          · rw [hcase] at hlevel'
            exact .inr hlevel'
      next => cases hjoin

theorem hinted (h : s.Holds frame c) {hint : Hint} (hhint : hint.Holds c.rest) :
    Stance.Holds { s with hint := some hint } frame c :=
  ⟨h.supply, by rintro _ ⟨⟩; exact hhint, h.based, h.level⟩

/-- A second token that is one of the kinds is there, unless the end of the input is one. -/
theorem supplied (h : s.Holds frame c) {kinds : List TokenKind}
    (hsecond : kinds.contains (kindAt c.rest 1) = true) :
    Stance.Holds { s with supply := if kinds.contains .eof then s.supply else .two } frame c := by
  split
  next => exact h
  next heof =>
      refine ⟨Skim.lt_length_of_kindAt fun hend => heof ?_, h.hint, h.based, h.level⟩
      rwa [hend] at hsecond

/-- What a look tells is true. -/
theorem given (hs : s.Holds frame c) (hsolid : c.Solid) {look : Look} {answer : Bool}
    (hlook : look.holds frame c.rest = answer) :
    ∃ t, look.given answer s = some t ∧ t.Holds frame c := by
  unfold Look.given
  split
  next hended =>
      refine ⟨s, if_neg ?_, hs⟩
      rw [hs.rest_eq_nil hended] at hlook
      simp only [Bool.and_eq_true, bne_iff_ne, not_and, not_not]
      intro hframeless
      rw [← hlook, Look.holds_of_frameless hframeless frame]
  next hended =>
      have hrest := hs.rest_ne_nil hended
      split
      next kind =>
          simp only [Look.holds, List.contains_cons, List.contains_nil, Bool.or_false,
            beq_iff_eq] at hlook
          refine ⟨_, if_neg ?_, ?_⟩
          · rintro (rfl | ⟨rfl, hhint⟩)
            · rw [Cursor.kindAt_rest hrest] at hlook
              exact (hsolid.next hrest).kind hlook
            · exact hs.hint _ hhint hlook
          · split
            next hsign =>
                -- behind the sign comes the word that makes it a declaration
                refine ⟨Skim.lt_length_of_kindAt fun hend => ?_, hs.hint, hs.based, hs.level⟩
                have hdeclares := hs.hint _ hsign.2
                rw [Hint.Holds, hlook, hsign.1, hend] at hdeclares
                exact absurd hdeclares (by decide)
            next => exact hs
      next kind kinds =>
          refine ⟨_, rfl, ?_⟩
          split
          next hkind =>
              subst hkind
              refine hs.hinted fun hbrace => ?_
              rw [Look.holds, hbrace] at hlook
              simp at hlook
          next => exact hs
      next kinds => exact ⟨_, rfl, hs.supplied hlook⟩
      next kinds =>
          rw [Look.holds, Bool.and_eq_true] at hlook
          exact ⟨_, rfl, hs.supplied hlook.2⟩
      next =>
          rw [Look.holds, Bool.or_eq_true] at hlook
          exact ⟨_, rfl, hs.hinted hlook⟩
      next =>
          refine ⟨_, rfl, ?_⟩
          split
          next hhint =>
              refine hs.hinted ((hs.hint _ hhint).resolve_left ?_)
              rw [Look.holds] at hlook
              rw [hlook]
              exact Bool.false_ne_true
          next => exact hs
      next =>
          refine ⟨s, if_neg fun hhint => ?_, hs⟩
          have hmodifier := hs.hint _ hhint
          rw [Look.holds] at hlook
          rw [Hint.Holds, hlook] at hmodifier
          cases hmodifier
      next =>
          rw [Look.holds] at hlook
          exact ⟨_, rfl, hs.hinted hlook⟩
      next =>
          simp only [Look.holds, Ahead.holds, Bool.and_eq_true] at hlook
          exact ⟨_, rfl, hs.hinted hlook.1⟩
      next =>
          simp only [Look.holds, Ahead.holds, Bool.and_eq_true, beq_iff_eq] at hlook
          refine ⟨_, rfl, hs.hinted (Skim.lt_length_of_kindAt ?_)⟩
          rw [hlook.2]
          decide
      next =>
          simp only [Look.holds, Ahead.holds, beq_iff_eq] at hlook
          refine ⟨_, rfl, hs.hinted fun hnil => ?_⟩
          rw [hnil] at hlook
          cases hlook
      next => exact ⟨s, rfl, hs⟩

end Holds

end Stance

/-! ## Forms -/

open Cursor (Onward Further)

/-- One of the stances holds, and of all nodes made it is known why they do not nest, if so. -/
def Stance.Reached (source : Bytes) (outs : List Stance) (frame : Frame) (c : Cursor) : Prop :=
  (∃ t ∈ outs, t.Holds frame c) ∧ Node.EveryIn (Node.Accounted source) frame

/-- The rule leads to what `exits` says. -/
def Upholds (source : Bytes) (exits : Rule → Stance → Option (List Stance)) : Behaviour :=
  fun r frame c frame' c' => r.Reads frame c frame' c' ∧ ∀ s outs edge start,
    exits r s = some outs → frame.Rests source edge start c → s.Holds frame c →
      Node.EveryIn (Node.Accounted source) frame → Stance.Reached source outs frame' c'

namespace Stance.Reached

variable {source : Bytes} {ts outs outs' : List Stance} {frame frame' nodes : Frame} {c c' : Cursor}
  {s t : Stance}

theorem single (ht : t.Holds frame c) (hall : Node.EveryIn (Node.Accounted source) frame) :
    Reached source [t] frame c :=
  ⟨⟨t, List.mem_singleton_self _, ht⟩, hall⟩

theorem mono (h : Reached source outs frame c) (hsub : outs ⊆ outs') :
    Reached source outs' frame c :=
  ⟨h.1.imp fun _ ht => ⟨hsub ht.1, ht.2⟩, h.2⟩

/-- What every stance that may be reached leads to is reached. -/
theorem collect {go : Stance → Option (List Stance)} (h : Reached source ts frame c)
    (hcollect : Stance.collect go ts = some outs)
    (hgo : ∀ t us, t.Holds frame c → Node.EveryIn (Node.Accounted source) frame → go t = some us →
      Reached source us frame' c') : Reached source outs frame' c' := by
  obtain ⟨⟨t, ht, hholds⟩, hall⟩ := h
  obtain ⟨us, hus, hsub⟩ := collect_eq_some hcollect ht
  exact (hgo t us hholds hall hus).mono hsub

/-- Nodes are put behind the frame. -/
theorem join (hs : s.Holds frame c) (hall : Node.EveryIn (Node.Accounted source) frame)
    (ht : t.Holds nodes c') (hnodes : Node.EveryIn (Node.Accounted source) nodes)
    (honward : Onward c c') (hsolid : c.Solid)
    (hrests : Frame.Rests source c.behind.offset c.next.lo nodes c')
    (hjoin : (s.join t).map ([·]) = some outs) : Reached source outs (frame ++ nodes) c' := by
  obtain ⟨u, hu, rfl⟩ := Option.map_eq_some_iff.mp hjoin
  exact .single (hs.join ht honward hsolid hrests hu) (hall.append hnodes)

end Stance.Reached

namespace Form

variable {source : Bytes} {exits : Rule → Stance → Option (List Stance)} {f : Form}
  {frame frame' : Frame} {c c' : Cursor} {edge start : Nat} {s : Stance} {outs : List Stance}

theorem eq_of_isMark (h : f.isMark = true) : f = node .referenceParameterList done := by
  unfold isMark at h
  split at h
  next => rw [of_decide_eq_true h]; rfl
  next => cases h

theorem Does.laid (h : f.Does (Upholds source exits) frame c frame' c')
    (hrests : frame.Rests source edge start c) :
    frame'.Rests source edge start c' ∧ Further c c' :=
  (h.mono fun _ _ _ _ _ h => h.1.staysLaid).staysLaid hrests

theorem Does.upholds_onward (h : f.Does (Upholds source exits) frame c frame' c') : Onward c c' :=
  h.onward fun _ _ _ _ _ h => h.1.onward

/-- A form that is not refused makes only nodes that nest or of which it is known why not. -/
theorem Does.reaches (h : f.Does (Upholds source exits) frame c frame' c')
    (hflow : f.flow exits s = some outs) (hrests : frame.Rests source edge start c)
    (hs : s.Holds frame c) (hall : Node.EveryIn (Node.Accounted source) frame) :
    Stance.Reached source outs frame' c' := by
  induction f generalizing frame c frame' c' s outs edge start with
  | done =>
      obtain ⟨rfl, rfl⟩ := h
      cases hflow
      exact .single hs hall
  | take kind =>
      obtain ⟨rfl, rfl⟩ := h
      exact ⟨hs.take hrests.cursor hflow kind,
        hall.append (.single (.leaf (Node.accounted_of_no_children rfl)))⟩
  | missing problem =>
      obtain ⟨rfl, rfl⟩ := h
      obtain ⟨t, ht, rfl⟩ := Option.map_eq_some_iff.mp hflow
      exact .single (hs.missing ht _)
        (hall.append (.single (.missing (Node.accounted_of_no_children rfl))))
  | splitAngle =>
      obtain ⟨rfl, rfl⟩ := h
      cases hflow
      exact .single (hs.splitAngle hrests.cursor) hall
  | discard kind =>
      obtain ⟨rfl, rfl⟩ := h
      obtain ⟨t, ht, rfl⟩ := Option.map_eq_some_iff.mp hflow
      exact .single (hs.discard ht _) (hall.filter _)
  | seq first second ihfirst ihsecond =>
      obtain ⟨middle, between, hfirst, hsecond⟩ := h
      obtain ⟨ts, hts, hcollect⟩ := Option.bind_eq_some_iff.mp hflow
      exact (ihfirst hfirst hts hrests hs hall).collect hcollect fun t us ht hmiddle hus =>
        ihsecond hsecond hus (hfirst.laid hrests).1 ht hmiddle
  | choose look yes no ihyes ihno =>
      obtain ⟨ss, ts, hss, hts, hsub, hsub'⟩ := Stance.merge_eq_some hflow
      rcases h with ⟨hlook, hyes⟩ | ⟨hlook, hno⟩
      · obtain ⟨t, hgiven, ht⟩ := hs.given hrests.cursor.solid hlook
        rw [hgiven] at hss
        exact (ihyes hyes hss hrests ht hall).mono hsub
      · obtain ⟨t, hgiven, ht⟩ := hs.given hrests.cursor.solid hlook
        rw [hgiven] at hts
        exact (ihno hno hts hrests ht hall).mono hsub'
  | enclose label body ih =>
      obtain ⟨children, hbody, rfl⟩ := h
      obtain ⟨ts, hts, hcollect⟩ := Option.bind_eq_some_iff.mp hflow
      refine (ih hbody hts hrests hs hall).collect hcollect fun t us ht hchildren hus => ?_
      obtain ⟨u, hclose, rfl⟩ := Option.map_eq_some_iff.mp hus
      obtain ⟨hu, hnode⟩ := hs.close hbody.upholds_onward hrests.cursor.solid ht
        (hbody.laid hrests).1.cursor hclose (label.diagnose c.next)
      exact .single hu (.around hnode hchildren)
  | within body ih =>
      obtain ⟨nodes, hbody, rfl⟩ := h
      simp only [flow] at hflow
      split at hflow
      next hmark =>
          have hbody' := eq_of_isMark hmark
          subst hbody'
          obtain ⟨_, ⟨rfl, rfl⟩, rfl⟩ := hbody
          split at hflow
          next hlevel =>
              cases hflow
              exact .single (hs.mark hlevel _)
                (hall.append (.single (.intro (Node.accounted_of_no_children rfl) nofun)))
          next => cases hflow
      next =>
          obtain ⟨ts, hts, hcollect⟩ := Option.bind_eq_some_iff.mp hflow
          exact (ih hbody hts (.nil hrests.cursor) hs.fresh .nil).collect hcollect
            fun t us ht hnodes hus => .join hs hall ht hnodes hbody.upholds_onward
              hrests.cursor.solid (hbody.laid (.nil hrests.cursor)).1 hus
  | orElse first second ihfirst ihsecond =>
      obtain ⟨nodes, between, hfirst, h⟩ := h
      have honward := hfirst.upholds_onward
      have hsolid := hrests.cursor.solid
      obtain ⟨hnodes, hfurther⟩ := hfirst.laid (.nil hrests.cursor)
      have hbetween := hrests.move hnodes.cursor hfurther
      simp only [flow] at hflow
      split at hflow
      next hended =>
          have hrest := hs.rest_eq_nil hended
          rcases h with ⟨hstuck, hsecond⟩ | ⟨hmoved, _⟩
          · refine ihsecond hsecond hflow hbetween ?_ hall
            have hstands := honward.stands hstuck
            exact hs.same ((honward.ended hrest).trans hrest.symm) hstands.1 hstands.2
          · exact absurd (honward.taken_eq hsolid hrest) hmoved
      next hended =>
          obtain ⟨ts, hts, hcollect⟩ := Option.bind_eq_some_iff.mp hflow
          refine (ihfirst hfirst hts (.nil hrests.cursor) hs.fresh .nil).collect hcollect
            fun t us ht hnodesAll hus => ?_
          obtain ⟨vs, ws, hvs, hws, hsub, hsub'⟩ := Stance.merge_eq_some hus
          rcases h with ⟨hstuck, hsecond⟩ | ⟨_, rfl, rfl⟩
          · have hmore : t.supply ≠ .ended := fun hend =>
              hs.rest_ne_nil hended ((honward.stayed hstuck).1 (ht.rest_eq_nil hend))
            rw [if_neg hmore] at hws
            have hstands := honward.stands hstuck
            have hstay := hs.stay ht hstands.1 hstands.2 honward.ended
            exact (ihsecond hsecond hws hbetween hstay hall).mono hsub'
          · exact (Stance.Reached.join hs hall ht hnodesAll honward hsolid hnodes hvs).mono hsub
  | ifStuck first second ihfirst ihsecond =>
      obtain ⟨middle, between, hfirst, h⟩ := h
      have honward := hfirst.upholds_onward
      obtain ⟨ts, hts, hcollect⟩ := Option.bind_eq_some_iff.mp hflow
      refine (ihfirst hfirst hts hrests hs hall).collect hcollect fun t us ht hmiddle hus => ?_
      obtain ⟨vs, ws, hvs, hws, hsub, hsub'⟩ := Stance.merge_eq_some hus
      rcases h with ⟨hstuck, hsecond⟩ | ⟨hmoved, rfl, rfl⟩
      · have hlive : ¬(t.supply = .ended ∧ s.supply ≠ .ended) := fun ⟨hend, hmore⟩ =>
          hs.rest_ne_nil hmore ((honward.stayed hstuck).1 (ht.rest_eq_nil hend))
        rw [if_neg hlive] at hws
        exact (ihsecond hsecond hws (hfirst.laid hrests).1 ht hmiddle).mono hsub'
      · have hmore : s.supply ≠ .ended := fun hend =>
          hmoved (honward.taken_eq hrests.cursor.solid (hs.rest_eq_nil hend))
        rw [if_neg hmore] at hvs
        cases hvs
        exact (Stance.Reached.single ht hmiddle).mono hsub
  | rule name => exact h.2 s outs edge start hflow hrests hs hall

end Form

end DotCompletion
