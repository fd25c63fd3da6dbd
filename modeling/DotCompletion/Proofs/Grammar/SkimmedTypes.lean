import DotCompletion.Proofs.Grammar.Names
import DotCompletion.Proofs.Grammar.Skims

/-!
# Types behind a skim

Whether a loop declares its variable, and whether a branch of a switch does, is told by a skim over
the type in front of the variable. The skim is loose about type arguments: it counts the brackets
and lets names and signs pass in any order. The grammar is not, and may break a type off in front of
what the skim has passed. It does not do so without a trace: where nothing in the type is an error,
it ends where the skim ends (`Rule.Reads.type_rest`).
-/

namespace DotCompletion

open Skim

/-- Neither the node nor any below it is an error. -/
def Node.Unbroken (n : Node) : Prop := n.Every fun m => m.kind ≠ .error

/-- Nothing in the frame is broken. -/
def Frame.Unbroken (frame : Frame) : Prop := ∀ n ∈ frame, n.Unbroken

namespace Frame.Unbroken

variable {frame nodes : Frame} {kind : NodeKind} {error : Option Diagnostic} {p : Position}

theorem of_append_left (h : Unbroken (frame ++ nodes)) : frame.Unbroken :=
  fun n hn => h n (List.mem_append_left _ hn)

theorem of_append_right (h : Unbroken (frame ++ nodes)) : Frame.Unbroken nodes :=
  fun n hn => h n (List.mem_append_right _ hn)

theorem children (h : Unbroken [.around kind error p nodes]) : Frame.Unbroken nodes :=
  fun _ hn => (h _ (List.mem_singleton_self _)).child hn

theorem not_missing {d : Diagnostic} : ¬Unbroken (frame ++ [Node.missing p d]) :=
  fun h => (h _ (List.mem_append_right _ (List.mem_singleton_self _))).own rfl

theorem not_fault {d : Diagnostic} : ¬Unbroken (frame ++ [Node.around .error (some d) p nodes]) :=
  fun h => (h _ (List.mem_append_right _ (List.mem_singleton_self _))).own rfl

end Frame.Unbroken

/-! ## The walk of the skim -/

namespace Skim

namespace TypePlace

theorem step_eof (place place' : TypePlace) : place.step .eof ≠ .go place' := by
  cases place <;> exact nofun

/-- Where the walk stands behind a bracket that closes type arguments inside `depth` others. -/
def behindClosing : Nat → TypePlace
  | 0 => behindArguments
  | depth + 1 => arguments depth

theorem step_greater (depth : Nat) :
    (arguments depth).step .greater = .go (behindClosing depth) := by
  cases depth <;> rfl

theorem step_arguments_ne_stop (kind : TokenKind) (depth : Nat) :
    (arguments depth).step kind ≠ .stop := by
  intro h
  simp only [step] at h
  repeat' split at h
  all_goals cases h

/-- Inside type arguments nothing but an angle bracket leads elsewhere. -/
theorem step_passes {kind : TokenKind} {place : TypePlace} {depth : Nat} (hless : kind ≠ .less)
    (hclosing : closing kind = 0) (h : (arguments depth).step kind = .go place) :
    place = arguments depth := by
  simp only [step, if_neg hless, hclosing, ne_eq, not_true_eq_false, if_false] at h
  split at h
  · cases h; rfl
  · cases h

/-- Two closing brackets in one sign are taken like one after the other. -/
theorem step_of_shiftRight {place : TypePlace} {depth : Nat}
    (h : (arguments depth).step .shiftRight = .go place) :
    (behindClosing depth).step .greater = .go place := by
  match depth with
  | 0 => cases h
  | 1 | depth + 2 => cases h; rfl

theorem step_of_shiftRightZero {place : TypePlace} {depth : Nat}
    (h : (arguments depth).step .shiftRightZero = .go place) :
    (behindClosing depth).step .shiftRight = .go place := by
  match depth with
  | 0 | 1 => cases h
  | 2 | depth + 3 => cases h; rfl

end TypePlace

variable {place place' : TypePlace} {tokens rest : List Token} {depth : Nat}

/-- One step of the walk. -/
theorem typeName?_step (h : place.step (kindAt tokens 0) = .go place') :
    typeName? place tokens = typeName? place' tokens.tail := by
  cases tokens with
  | nil => exact absurd h (place.step_eof place')
  | cons t rest =>
      have hstep : place.step t.kind = .go place' := h
      rw [typeName?, hstep, List.tail_cons]

/-- Two places that go on alike at the next token go on alike. -/
theorem typeName?_congr (h : place.step (kindAt tokens 0) = place'.step (kindAt tokens 0)) :
    typeName? place tokens = typeName? place' tokens := by
  cases tokens with
  | nil =>
      have hstep : place.step .eof = place'.step .eof := h
      rw [typeName?, typeName?, hstep]
  | cons t rest =>
      have hstep : place.step t.kind = place'.step t.kind := h
      rw [typeName?, typeName?, hstep]

/-- The walk fails where a step does. -/
theorem typeName?_fail (h : place.step (kindAt tokens 0) = .fail) :
    typeName? place tokens = none := by
  cases tokens with
  | nil =>
      have hstep : place.step .eof = .fail := h
      rw [typeName?, hstep]
  | cons t rest =>
      have hstep : place.step t.kind = .fail := h
      rw [typeName?, hstep]

/-- The walk ends where a step stops it. -/
theorem typeName?_stop (h : place.step (kindAt tokens 0) = .stop) :
    typeName? place tokens = some tokens := by
  cases tokens with
  | nil =>
      have hstep : place.step .eof = .stop := h
      rw [typeName?, hstep]
  | cons t rest =>
      have hstep : place.step t.kind = .stop := h
      rw [typeName?, hstep]

/-- A walk inside type arguments that does not fail goes on. -/
theorem exists_step_of_typeName? (h : typeName? (.arguments depth) tokens = some rest) :
    ∃ place, (TypePlace.arguments depth).step (kindAt tokens 0) = .go place ∧
      typeName? place tokens.tail = some rest := by
  cases hstep : (TypePlace.arguments depth).step (kindAt tokens 0) with
  | go place => exact ⟨place, rfl, by rwa [← typeName?_step hstep]⟩
  | stop => exact absurd hstep (TypePlace.step_arguments_ne_stop _ _)
  | fail =>
      rw [typeName?_fail hstep] at h
      cases h

theorem typeName?_passes (h : typeName? (.arguments depth) tokens = some rest)
    (hless : kindAt tokens 0 ≠ .less) (hclosing : closing (kindAt tokens 0) = 0) :
    typeName? (.arguments depth) tokens.tail = some rest := by
  obtain ⟨place, hstep, hrest⟩ := exists_step_of_typeName? h
  rwa [TypePlace.step_passes hless hclosing hstep] at hrest

/-- Arguments are opened behind a part of a name and inside other arguments. -/
theorem typeName?_opened (h : kindAt tokens 0 = .less) :
    typeName? .behindPart tokens = typeName? (.arguments 0) tokens.tail ∧
      ∀ depth, typeName? (.arguments depth) tokens =
        typeName? (.arguments (depth + 1)) tokens.tail := by
  have hpart : TypePlace.behindPart.step (kindAt tokens 0) = .go (.arguments 0) := if_pos h
  have hinside : ∀ depth, (TypePlace.arguments depth).step (kindAt tokens 0) =
      .go (.arguments (depth + 1)) := fun _ => if_pos h
  exact ⟨typeName?_step hpart, fun depth => typeName?_step (hinside depth)⟩

theorem typeName?_closed (h : kindAt tokens 0 = .greater) (depth : Nat) :
    typeName? (.arguments depth) tokens = typeName? (.behindClosing depth) tokens.tail := by
  have hstep : (TypePlace.arguments depth).step (kindAt tokens 0) = .go (.behindClosing depth) := by
    rw [h, TypePlace.step_greater]
  exact typeName?_step hstep

/-- Behind a name without arguments and behind arguments the walk goes on alike. -/
theorem typeName?_behindPart (h : kindAt tokens 0 ≠ .less) :
    typeName? .behindPart tokens = typeName? .behindArguments tokens :=
  typeName?_congr (if_neg h)

/-- A name goes on where the walk takes a dot. -/
theorem typeName?_dotted (hdot : kindAt tokens 0 = .dot)
    (hname : (kindAt tokens 1).isIdentifier = true) :
    typeName? .behindArguments tokens = typeName? .behindPart tokens.tail.tail := by
  have hfirst : TypePlace.behindArguments.step (kindAt tokens 0) = .go .part := if_pos hdot
  have hsecond : TypePlace.part.step (kindAt tokens.tail 0) = .go .behindPart :=
    if_pos (by rwa [kindAt_tail])
  rw [typeName?_step hfirst, typeName?_step hsecond]

/-- Where a name does not go on there is nothing but pairs of brackets. -/
theorem typeName?_ended (hend : kindAt tokens 0 = .dot → (kindAt tokens 1).isIdentifier = false)
    (h : typeName? .behindArguments tokens = some rest) :
    typeName? .behindBracket tokens = some rest := by
  by_cases hdot : kindAt tokens 0 = .dot
  · have hfirst : TypePlace.behindArguments.step (kindAt tokens 0) = .go .part := if_pos hdot
    have hsecond : TypePlace.part.step (kindAt tokens.tail 0) = .fail :=
      if_neg (by rw [kindAt_tail, hend hdot]; exact Bool.false_ne_true)
    rw [typeName?_step hfirst, typeName?_fail hsecond] at h
    cases h
  · have hstep : TypePlace.behindArguments.step (kindAt tokens 0) =
        TypePlace.behindBracket.step (kindAt tokens 0) := if_neg hdot
    rwa [← typeName?_congr hstep]

/-- Pairs of brackets behind a type are passed like by a skim over such pairs alone. -/
theorem brackets_of_typeName? {tokens : List Token}
    (h : typeName? .behindBracket tokens = some rest) : brackets tokens = rest := by
  match tokens with
  | [] => cases h; rfl
  | [t] =>
      by_cases hopens : t.kind = .lbracket
      · have hstep : TypePlace.behindBracket.step (kindAt [t] 0) = .go .bracket := if_pos hopens
        rw [typeName?_step hstep] at h
        cases h
      · have hstep : TypePlace.behindBracket.step (kindAt [t] 0) = .stop := if_neg hopens
        rw [typeName?_stop hstep] at h
        cases h
        rfl
  | t :: u :: more =>
      by_cases hopens : t.kind = .lbracket
      · have hstep : TypePlace.behindBracket.step (kindAt (t :: u :: more) 0) = .go .bracket :=
          if_pos hopens
        rw [typeName?_step hstep, List.tail_cons] at h
        by_cases hcloses : u.kind = .rbracket
        · have hstep' : TypePlace.bracket.step (kindAt (u :: more) 0) = .go .behindBracket :=
            if_pos hcloses
          rw [typeName?_step hstep', List.tail_cons] at h
          rw [brackets, if_pos ⟨hopens, hcloses⟩]
          exact brackets_of_typeName? h
        · have hstep' : TypePlace.bracket.step (kindAt (u :: more) 0) = .fail := if_neg hcloses
          rw [typeName?_fail hstep'] at h
          cases h
      · have hstep : TypePlace.behindBracket.step (kindAt (t :: u :: more) 0) = .stop :=
          if_neg hopens
        rw [typeName?_stop hstep] at h
        cases h
        rw [brackets, if_neg fun hpair => hopens hpair.1]

/-- What the walk does at a sign that may be cut, it does bracket by bracket. -/
theorem typeName?_cut {t : Token} (hsolid : t.Solid)
    (hcut : Cursor.splittable.contains t.kind = true)
    (h : typeName? (.arguments depth) (t :: tokens) = some rest) :
    typeName? (.arguments depth) (Cursor.angleOf t :: Cursor.behindAngle t :: tokens) =
      some rest := by
  have hliteral := hsolid.spelled hcut
  have hbehind : (Cursor.behindAngle t).kind = .ofSign ((Bytes.ofString t.kind.name).drop 1) := by
    rw [Cursor.behindAngle, hliteral]
  obtain ⟨place, hstep, hplace⟩ := exists_step_of_typeName? h
  change (TypePlace.arguments depth).step t.kind = .go place at hstep
  have hangle : (TypePlace.arguments depth).step
      (kindAt (Cursor.angleOf t :: Cursor.behindAngle t :: tokens) 0) =
        .go (.behindClosing depth) := TypePlace.step_greater depth
  rw [typeName?_step hangle, List.tail_cons]
  have hkind : t.kind ∈ Cursor.splittable := by simpa using hcut
  simp only [Cursor.splittable, List.mem_cons, List.not_mem_nil, or_false] at hkind
  rcases hkind with hkind | hkind | hkind | hkind | hkind <;> rw [hkind] at hstep hbehind
  · have hnext : (TypePlace.behindClosing depth).step
        (kindAt (Cursor.behindAngle t :: tokens) 0) = .go place := by
      change TypePlace.step (Cursor.behindAngle t).kind _ = _
      rw [hbehind]
      exact TypePlace.step_of_shiftRight hstep
    rwa [typeName?_step hnext]
  · have hnext : (TypePlace.behindClosing depth).step
        (kindAt (Cursor.behindAngle t :: tokens) 0) = .go place := by
      change TypePlace.step (Cursor.behindAngle t).kind _ = _
      rw [hbehind]
      exact TypePlace.step_of_shiftRightZero hstep
    rwa [typeName?_step hnext]
  -- the walk does not pass a sign that goes on with `=`
  all_goals cases hstep

/-- A closing bracket that is cut off a sign is passed before the rest of the sign. -/
theorem typeName?_splitAngle {c : Cursor} (hsolid : c.Solid)
    (h : typeName? (.arguments depth) c.rest = some rest) :
    typeName? (.arguments depth) c.splitAngle.rest = some rest := by
  unfold Cursor.splitAngle
  split
  next => exact h
  next t tail hc =>
      split
      next hcut =>
          rw [hc] at h
          exact typeName?_cut (hsolid t (by simp [hc])) hcut h
      next => exact h

end Skim

/-! ## Inside type arguments -/

/-- A walk that comes by the one cursor inside type arguments comes by the other. -/
def Cursor.Passes (c c' : Cursor) : Prop :=
  ∀ depth rest, typeName? (.arguments depth) c.rest = some rest →
    typeName? (.arguments depth) c'.rest = some rest

namespace Cursor.Passes

variable {c c₁ c₂ : Cursor}

theorem refl (c : Cursor) : c.Passes c := fun _ _ h => h

theorem trans (h : c.Passes c₁) (h' : c₁.Passes c₂) : c.Passes c₂ :=
  fun depth rest hrest => h' depth rest (h depth rest hrest)

theorem advance (hless : kindAt c.rest 0 ≠ .less) (hclosing : closing (kindAt c.rest 0) = 0) :
    c.Passes c.advance := by
  intro depth rest hrest
  rw [Cursor.advance_rest]
  exact typeName?_passes hrest hless hclosing

/-- The token that was seen is passed. -/
theorem next {kinds : List TokenKind} {frame : Frame}
    (h : (Look.next kinds).holds frame c.rest = true)
    (hkinds : ∀ k ∈ kinds, k ≠ .less ∧ closing k = 0) : c.Passes c.advance := by
  have hmem : kindAt c.rest 0 ∈ kinds := by simpa [Look.holds] using h
  exact advance (hkinds _ hmem).1 (hkinds _ hmem).2

/-- The token behind the next is passed. -/
theorem second {kinds : List TokenKind} {frame : Frame}
    (h : (Look.second kinds).holds frame c.rest = true)
    (hkinds : ∀ k ∈ kinds, k ≠ .less ∧ closing k = 0) : c.advance.Passes c.advance.advance := by
  have hmem : kindAt c.rest 1 ∈ kinds := by simpa [Look.holds] using h
  rw [← kindAt_tail, ← Cursor.advance_rest] at hmem
  exact advance (hkinds _ hmem).1 (hkinds _ hmem).2

theorem splitAngle (hsolid : c.Solid) : c.Passes c.splitAngle :=
  fun _ _ => typeName?_splitAngle hsolid

/-- No walk comes by an opening bracket. -/
theorem of_lparen (h : kindAt c.rest 0 = .lparen) (c' : Cursor) : c.Passes c' := by
  intro depth rest hrest
  obtain ⟨place, hstep, -⟩ := exists_step_of_typeName? hrest
  rw [h] at hstep
  cases hstep

end Cursor.Passes

namespace Rule

/-- How a rule for types goes along with the walk of a skim, if nothing breaks. -/
def KeepsWalk : Behaviour := fun r _ c frame' c' =>
  c.Solid → frame'.Unbroken →
    match r with
    | typeUse | annotations | qualifiedName false | nameRest false | dims
    | list .greater .typeUse => c.Passes c'
    | annotationUse => c.advance.Passes c'
    | typeName =>
      c.advance.Passes c' ∧ ∀ rest, typeName? .behindPart c.advance.rest = some rest →
        typeName? .behindBracket c'.rest = some rest
    | typeArguments _ =>
      ∀ depth rest, typeName? (.arguments depth) c.rest.tail = some rest →
        typeName? (.behindClosing depth) c'.rest = some rest
    | _ => True

/-- What is known of the rules in a form. -/
def Walks : Behaviour := fun r frame c frame' c' =>
  r.Reads frame c frame' c' ∧ r.KeepsWalk frame c frame' c'

section

variable {frame frame' : Frame} {c c' : Cursor}

theorem Walks.solid {f : Form} (h : f.Does Walks frame c frame' c') (hsolid : c.Solid) : c'.Solid :=
  (h.onward fun _ _ _ _ _ h => h.1.onward).solid hsolid

theorem Walks.unbroken {f : Form} (h : f.Does Walks frame c frame' c') (hf : f.steady = true)
    (hunbroken : frame'.Unbroken) : frame.Unbroken :=
  (h.mono fun _ _ _ _ _ h => h.1.every_of_steady).every_of_steady hf hunbroken

theorem annotations_keepsWalk (h : annotations.form.Does Walks frame c frame' c') :
    annotations.KeepsWalk frame c frame' c' := by
  intro hsolid hunbroken
  change c.Passes c'
  rcases h with ⟨hat, middle, between, hfirst, hreads, hmore⟩ | ⟨_, _, rfl⟩
  · have hbetween := Walks.solid hfirst hsolid
    obtain ⟨nodes, ⟨_, hmark⟩, rfl⟩ := hfirst
    have hmiddle := hreads.every_of_steady rfl hunbroken
    exact (Cursor.Passes.next hat (by decide)).trans
      ((hmark hsolid (Frame.Unbroken.of_append_right hmiddle)).trans
        (hmore hbetween hunbroken))
  · exact .refl c'

theorem annotationUse_keepsWalk (h : annotationUse.form.Does Walks frame c frame' c') :
    annotationUse.KeepsWalk frame c frame' c' := by
  intro hsolid hunbroken
  obtain ⟨children, ⟨middle, between, ⟨_, _, ⟨rfl, rfl⟩, _, hname⟩, harguments⟩, rfl⟩ := h
  change c.advance.Passes c'
  have hadvance := (Cursor.onward_advance c).solid hsolid
  have hmiddle : Frame.Unbroken middle := Walks.unbroken harguments rfl hunbroken.children
  refine (hname hadvance hmiddle).trans ?_
  rcases harguments with ⟨hopens, _⟩ | ⟨_, rfl, rfl⟩
  · exact .of_lparen (by simpa [Look.holds] using hopens) c'
  · exact .refl c'

theorem qualifiedName_keepsWalk (h : (qualifiedName false).form.Does Walks frame c frame' c') :
    (qualifiedName false).KeepsWalk frame c frame' c' := by
  intro hsolid hunbroken
  change c.Passes c'
  rcases h with ⟨hname, _, _, ⟨_, rfl⟩, _, hmore⟩ | ⟨_, rfl, _⟩
  · exact (Cursor.Passes.next hname (by decide)).trans
      (hmore ((Cursor.onward_advance c).solid hsolid) hunbroken)
  · exact absurd hunbroken Frame.Unbroken.not_missing

theorem nameRest_keepsWalk (h : (nameRest false).form.Does Walks frame c frame' c') :
    (nameRest false).KeepsWalk frame c frame' c' := by
  intro hsolid hunbroken
  change c.Passes c'
  rcases h with ⟨hdot, hpart⟩ | ⟨_, _, rfl⟩
  · rcases hpart with ⟨hname, _, _, htaken, _, hmore⟩ | ⟨_, ⟨hnothing, _⟩ | ⟨_, _, _, _, rfl, _⟩⟩
    · have hnext := Walks.solid htaken hsolid
      obtain ⟨_, _, ⟨_, rfl⟩, _, rfl⟩ := htaken
      exact (Cursor.Passes.next hdot (by decide)).trans
        ((Cursor.Passes.second hname (by decide)).trans (hmore hnext hunbroken))
    · cases hnothing
    · exact absurd hunbroken Frame.Unbroken.not_missing
  · exact .refl c'

theorem dims_keepsWalk (h : dims.form.Does Walks frame c frame' c') :
    dims.KeepsWalk frame c frame' c' := by
  intro hsolid hunbroken
  change c.Passes c'
  rcases h with ⟨hpair, _, _, htaken, _, hmore⟩ | ⟨_, _, rfl⟩
  · obtain ⟨hopens, hcloses⟩ := Bool.and_eq_true_iff.mp hpair
    have hnext := Walks.solid htaken hsolid
    obtain ⟨_, _, ⟨_, rfl⟩, _, rfl⟩ := htaken
    exact (Cursor.Passes.next hopens (by decide)).trans
      ((Cursor.Passes.second hcloses (by decide)).trans (hmore hnext hunbroken))
  · exact .refl c'

theorem typeUse_keepsWalk (h : typeUse.form.Does Walks frame c frame' c') :
    typeUse.KeepsWalk frame c frame' c' := by
  intro hsolid hunbroken
  obtain ⟨children, ⟨middle, between, ⟨hreads, hmarked⟩, htype⟩, rfl⟩ := h
  change c.Passes c'
  have hchildren := hunbroken.children
  have hbetween := hreads.onward.solid hsolid
  have hnext := (Cursor.onward_advance between).solid hbetween
  refine (hmarked hsolid (Walks.unbroken htype rfl hchildren)).trans ?_
  rcases htype with ⟨hword, _, _, ⟨_, rfl⟩, _, hdims⟩ | ⟨_, ⟨hname, part, behind, hpart, hdims⟩ |
    ⟨_, ⟨hany, _, _, ⟨rfl, rfl⟩, hbound⟩ | ⟨_, rfl, _⟩⟩⟩
  · exact (Cursor.Passes.next hword (by decide)).trans (hdims hnext hchildren)
  · have hbehind := hpart.1.onward.solid hbetween
    exact (Cursor.Passes.next hname (by decide)).trans
      ((hpart.2 hbetween (hdims.1.every_of_steady rfl hchildren)).1.trans
        (hdims.2 hbehind hchildren))
  · refine (Cursor.Passes.next hany (by decide)).trans ?_
    rcases hbound with ⟨hword, _, _, ⟨_, rfl⟩, nodes, ⟨_, hmore⟩, rfl⟩ | ⟨_, _, rfl⟩
    · exact (Cursor.Passes.next hword (by decide)).trans
        (hmore ((Cursor.onward_advance _).solid hnext) (Frame.Unbroken.of_append_right hchildren))
    · exact .refl between.advance
  · exact absurd hchildren Frame.Unbroken.not_missing

/-- Behind its arguments, if there are any, a part of a name is passed. -/
theorem Walks.part {nodes : Frame}
    (h : (Form.optional [.less] (.call (.typeArguments .typeArguments))).Does Walks
      frame c nodes c')
    (hsolid : c.Solid) (hunbroken : nodes.Unbroken) :
    c.Passes c' ∧ ∀ rest, typeName? .behindPart c.rest = some rest →
      typeName? .behindArguments c'.rest = some rest := by
  rcases h with ⟨hopens, arguments, ⟨_, hclosed⟩, rfl⟩ | ⟨hnot, _, rfl⟩
  · have hwalk := hclosed hsolid (Frame.Unbroken.of_append_right hunbroken)
    obtain ⟨hpart, hinside⟩ := typeName?_opened (by simpa [Look.holds] using hopens)
    exact ⟨fun depth rest hrest => hwalk (depth + 1) rest (by rwa [← hinside]),
      fun rest hrest => hwalk 0 rest (by rwa [← hpart])⟩
  · have hless : kindAt c'.rest 0 ≠ .less := by simpa [Look.holds] using hnot
    exact ⟨.refl c', fun rest hrest => by rwa [← typeName?_behindPart hless]⟩

theorem typeName_keepsWalk (h : typeName.form.Does Walks frame c frame' c') :
    typeName.KeepsWalk frame c frame' c' := by
  intro hsolid hunbroken
  obtain ⟨middle, between, ⟨_, _, ⟨rfl, rfl⟩, harguments⟩, hmore⟩ := h
  have hadvance := (Cursor.onward_advance c).solid hsolid
  have hbetween := Walks.solid harguments hadvance
  obtain ⟨hpasses, hwalk⟩ :=
    Walks.part harguments hadvance (Walks.unbroken hmore rfl hunbroken)
  rcases hmore with ⟨hdotted, _, _, ⟨_, rfl⟩, _, hmore⟩ | ⟨hnot, _, rfl⟩
  · obtain ⟨hdot, hname⟩ := Bool.and_eq_true_iff.mp hdotted
    obtain ⟨hpasses', hwalk'⟩ := hmore ((Cursor.onward_advance between).solid hbetween) hunbroken
    refine ⟨hpasses.trans ((Cursor.Passes.next hdot (by decide)).trans
      ((Cursor.Passes.second hname (by decide)).trans hpasses')), fun rest hrest => ?_⟩
    have hrest' := hwalk rest hrest
    rw [typeName?_dotted (by simpa [Look.holds] using hdot) hname, ← Cursor.advance_rest,
      ← Cursor.advance_rest] at hrest'
    exact hwalk' rest hrest'
  · refine ⟨hpasses, fun rest hrest => typeName?_ended (fun hdot => ?_) (hwalk rest hrest)⟩
    simpa [Look.holds, hdot, TokenKind.isIdentifier] using hnot

theorem typeArguments_keepsWalk {kind : NodeKind}
    (h : (typeArguments kind).form.Does Walks frame c frame' c') :
    (typeArguments kind).KeepsWalk frame c frame' c' := by
  intro hsolid hunbroken
  obtain ⟨children, ⟨middle, behind, ⟨_, _, ⟨_, _, ⟨_, rfl⟩, _, rfl⟩, hlist⟩, _, _, ⟨rfl, rfl⟩,
    hcloses⟩, rfl⟩ := h
  have hadvance := (Cursor.onward_advance c).solid hsolid
  have hcut := (Cursor.onward_splitAngle c.advance).solid hadvance
  have hbehind := Walks.solid hlist hcut
  rcases hcloses with ⟨hangle, rfl, rfl⟩ | ⟨_, rfl, _⟩
  · have hlist' : c.advance.splitAngle.Passes behind := by
      rcases hlist with ⟨_, _, rfl⟩ | ⟨_, _, hlist⟩
      · exact .refl _
      · exact hlist hcut (Frame.Unbroken.of_append_left hunbroken.children)
    have hpasses := (Cursor.Passes.splitAngle hadvance).trans
      (hlist'.trans (.splitAngle hbehind))
    intro depth rest hrest
    rw [← Cursor.advance_rest] at hrest
    have hrest' := hpasses depth rest hrest
    rwa [typeName?_closed (by simpa [Look.holds] using hangle), ← Cursor.advance_rest] at hrest'
  · exact absurd hunbroken.children Frame.Unbroken.not_missing

theorem list_keepsWalk (h : (list .greater .typeUse).form.Does Walks frame c frame' c') :
    (list .greater .typeUse).KeepsWalk frame c frame' c' := by
  intro hsolid hunbroken
  change c.Passes c'
  rcases h with ⟨_, _, rfl⟩ | ⟨_, middle, between, hitem, hmore⟩
  · exact .refl c'
  · have hbetween := Walks.solid hitem hsolid
    have hmiddle : Frame.Unbroken middle := Walks.unbroken hmore rfl hunbroken
    have hpasses : c.Passes between := by
      obtain ⟨_, behind, ⟨nodes, ⟨_, htype⟩, rfl⟩, ⟨_, hstuck⟩ | ⟨_, rfl, rfl⟩⟩ := hitem
      · rcases hstuck with ⟨_, rfl, rfl⟩ | ⟨_, _, ⟨_, _, rfl⟩, rfl⟩
        · exact htype hsolid (Frame.Unbroken.of_append_right hmiddle)
        · exact absurd hmiddle Frame.Unbroken.not_fault
      · exact htype hsolid (Frame.Unbroken.of_append_right hmiddle)
    refine hpasses.trans ?_
    rcases hmore with ⟨hcomma, _, _, ⟨_, rfl⟩, _, hlist⟩ | ⟨_, _, rfl⟩
    · exact (Cursor.Passes.next hcomma (by decide)).trans
        (hlist ((Cursor.onward_advance between).solid hbetween) hunbroken)
    · exact .refl c'

end

theorem Reads.keepsWalk {r : Rule} {frame frame' : Frame} {c c' : Cursor}
    (h : r.Reads frame c frame' c') : r.KeepsWalk frame c frame' c' := by
  refine h.induct_reads KeepsWalk ?_
  intro r frame c frame' c' hform
  cases r with
  | typeUse => exact typeUse_keepsWalk hform
  | annotations => exact annotations_keepsWalk hform
  | annotationUse => exact annotationUse_keepsWalk hform
  | dims => exact dims_keepsWalk hform
  | typeName => exact typeName_keepsWalk hform
  | typeArguments => exact typeArguments_keepsWalk hform
  | qualifiedName star =>
      cases star with
      | true => exact fun _ _ => trivial
      | false => exact qualifiedName_keepsWalk hform
  | nameRest star =>
      cases star with
      | true => exact fun _ _ => trivial
      | false => exact nameRest_keepsWalk hform
  | list close item =>
      by_cases htypes : close = .greater ∧ item = .typeUse
      · obtain ⟨rfl, rfl⟩ := htypes
        exact list_keepsWalk hform
      · intro _ _
        split <;> first | trivial | simp_all
  | _ => exact fun _ _ => trivial

/-! ## The type of a variable -/

end Rule

namespace Skim

variable {tokens rest : List Token}

/-- A skim over a type begins at a primitive type or at a name. -/
theorem type?_cases {withBrackets : Bool} (h : type? withBrackets tokens = some rest) :
    ((kindAt tokens 0).isPrimitive = true ∧
        rest = if withBrackets then brackets tokens.tail else tokens.tail) ∨
      ((kindAt tokens 0).isPrimitive = false ∧ (kindAt tokens 0).isIdentifier = true ∧
        typeName? .behindPart tokens.tail = some rest) := by
  rw [type?, List.drop_one] at h
  split at h
  next hprimitive =>
      cases h
      exact .inl ⟨hprimitive, rfl⟩
  next hnot =>
      refine .inr ⟨by simpa using hnot, ?_⟩
      by_cases hname : (kindAt tokens 0).isIdentifier = true
      · have hstep : TypePlace.part.step (kindAt tokens 0) = .go .behindPart := if_pos hname
        exact ⟨hname, by rwa [← typeName?_step hstep]⟩
      · have hstep : TypePlace.part.step (kindAt tokens 0) = .fail := if_neg hname
        rw [typeName?_fail hstep] at h
        cases h

theorem brackets_of_ne (h : kindAt tokens 0 ≠ .lbracket) : brackets tokens = tokens := by
  match tokens with
  | [] | [_] => rfl
  | t :: u :: rest => exact if_neg fun hpair => h hpair.1

end Skim

/-- The type is the word `var`, whatever stands behind it. -/
def Node.IsVar (n : Node) : Prop := ∃ t ∈ n.children.head?.bind Node.token, t.kind = .kwVar

namespace Rule

variable {frame children nodes : Frame} {c c' : Cursor} {withBrackets : Bool} {rest : List Token}

theorem Reads.annotations_idle (h : annotations.Reads frame c nodes c')
    (hat : kindAt c.rest 0 ≠ .atSign) : nodes = frame ∧ c' = c := by
  rcases h.elim with ⟨hat', _⟩ | ⟨_, rfl, rfl⟩
  · exact absurd (by simpa [Look.holds] using hat') hat
  · exact ⟨rfl, rfl⟩

/-- Behind a word that is a type there are brackets at most, as the skim expects unless the word is
`var`. -/
theorem Reads.word_rest (h : dims.Reads [.leaf .token c.next] c.advance children c')
    (hword : kindAt c.rest 0 ∈ TokenKind.primitives ++ [TokenKind.kwVoid, .kwVar])
    (hskim : type? withBrackets c.rest = some rest)
    (hname : (kindAt rest 0).isIdentifier = true) :
    c'.rest = rest ∨ (∃ t ∈ children.head?.bind Node.token, t.kind = .kwVar) ∧
      kindAt c'.rest 0 ∈ [TokenKind.dot, .less] := by
  have hdims := h.dims_rest
  rw [Cursor.advance_rest] at hdims
  rcases type?_cases hskim with ⟨_, hskimmed⟩ | ⟨hnot, hidentifier, hwalk⟩
  · left
    cases withBrackets with
    | true => exact hdims.trans hskimmed.symm
    | false =>
        rw [if_neg (by decide)] at hskimmed
        rw [hdims, ← hskimmed, brackets_of_ne]
        rintro hbracket
        rw [hbracket] at hname
        cases hname
  · have hkinds : ∀ k ∈ TokenKind.primitives ++ [TokenKind.kwVoid, .kwVar],
        k.isPrimitive = false → k.isIdentifier = true → k = .kwVar := by decide
    have hvar := hkinds _ hword hnot hidentifier
    by_cases hgoes : kindAt c.rest.tail 0 ∈ [TokenKind.dot, .less]
    · refine .inr ⟨?_, ?_⟩
      · have hrest : c.rest ≠ [] := by
          intro hnil
          rw [hnil] at hvar
          cases hvar
        obtain ⟨more, rfl⟩ := h.exists_append rfl
        exact ⟨c.next, rfl, by rwa [← Cursor.kindAt_rest hrest]⟩
      · rwa [hdims, brackets_of_ne]
        rintro hbracket
        rw [hbracket] at hgoes
        exact absurd hgoes (by decide)
    · -- the skim goes on with nothing but brackets
      have hstep : TypePlace.behindPart.step (kindAt c.rest.tail 0) =
          TypePlace.behindBracket.step (kindAt c.rest.tail 0) := by
        simp only [List.mem_cons, List.not_mem_nil, or_false, not_or] at hgoes
        exact (if_neg hgoes.2).trans (if_neg hgoes.1)
      rw [typeName?_congr hstep] at hwalk
      exact .inl (hdims.trans (brackets_of_typeName? hwalk))

/-- A type is read up to where a skim over it ends, unless something in it is broken, or unless it
is the word `var`, which ends a type but not the skim. -/
theorem Reads.type_rest (h : typeUse.Reads [] c nodes c') (hsolid : c.Solid)
    (hskim : type? withBrackets c.rest = some rest)
    (hname : (kindAt rest 0).isIdentifier = true) :
    ∃ type, nodes = [type] ∧ type.kind = .typeUse ∧ (c'.rest = rest ∨ ¬type.Unbroken ∨
      type.IsVar ∧ kindAt c'.rest 0 ∈ [TokenKind.dot, .less]) := by
  obtain ⟨children, ⟨middle, between, hmarked, htype⟩, rfl⟩ := h.elim
  refine ⟨_, rfl, rfl, ?_⟩
  have hcases : (kindAt c.rest 0).isPrimitive = true ∨ (kindAt c.rest 0).isIdentifier = true :=
    (type?_cases hskim).imp And.left fun h => h.2.1
  have hkinds : ∀ k ∈ [TokenKind.atSign, .question],
      k.isPrimitive = false ∧ k.isIdentifier = false := by decide
  have hbegins : ∀ k ∈ [TokenKind.atSign, .question], kindAt c.rest 0 ≠ k := by
    rintro k hk rfl
    obtain ⟨hprimitive, hidentifier⟩ := hkinds _ hk
    rw [hprimitive, hidentifier] at hcases
    exact hcases.elim Bool.false_ne_true Bool.false_ne_true
  obtain ⟨rfl, rfl⟩ := Reads.annotations_idle hmarked (hbegins _ (by simp))
  rcases htype with ⟨hword, _, _, ⟨rfl, rfl⟩, hdims⟩ | ⟨hnot, htype⟩
  · have hmem : kindAt between.rest 0 ∈ TokenKind.primitives ++ [TokenKind.kwVoid, .kwVar] := by
      simpa only [Look.holds, List.contains_iff_mem] using hword
    exact (Reads.word_rest hdims hmem hskim hname).imp_right .inr
  · rcases htype with ⟨_, part, behind, hpart, hdims⟩ | ⟨_, ⟨hany, _⟩ | ⟨_, rfl, _⟩⟩
    · by_cases hunbroken : Frame.Unbroken part
      · left
        rcases type?_cases hskim with ⟨hprimitive, _⟩ | ⟨_, _, hwalk⟩
        · simp only [TokenKind.isPrimitive, List.contains_iff_mem] at hprimitive
          simp [Look.holds, hprimitive] at hnot
        · rw [← Cursor.advance_rest] at hwalk
          exact (Reads.dims_rest hdims).trans
            (brackets_of_typeName? ((Reads.keepsWalk hpart hsolid hunbroken).2 rest hwalk))
      · exact .inr (.inl fun h => hunbroken
          (Reads.every_of_steady hdims rfl fun n hn => h.child hn))
    · exact absurd (by simpa [Look.holds] using hany) (hbegins .question (by simp))
    · exact .inr (.inl fun h => Frame.Unbroken.not_missing fun n hn => h.child hn)

end Rule

end DotCompletion
