import DotCompletion.Proofs.Grammar.WholeInput

/-!
# Skimming and reading

In front of a local class, of the class of an array and of a reference to the constructor of an
array the grammar skims over modifiers or over pairs of brackets and reads them afterwards. Both
walks end in front of the same token.
-/

namespace DotCompletion

open Skim

theorem Cursor.advance_rest (c : Cursor) : c.advance.rest = c.rest.tail := by
  unfold Cursor.advance
  split
  next hrest => rw [hrest, List.tail_nil]
  next hrest => rw [hrest, List.tail_cons]

namespace Skim

theorem kindAt_tail (tokens : List Token) (i : Nat) :
    kindAt tokens.tail i = kindAt tokens (i + 1) := by
  cases tokens <;> rfl

/-- The tokens behind the modifiers, in front of the arguments of an annotation if there are any. -/
def behindName (tokens : List Token) : List Token :=
  if kindAt tokens 0 = .lparen then modifiers anyModifier (.nested 0) tokens.tail
  else modifiers anyModifier .between tokens

/-- Where an annotation's name does not go on there are its arguments, or it has ended. -/
theorem modifiers_eq_behindName {place : ModifierPlace} {tokens : List Token}
    (h : ∀ t rest, tokens = t :: rest → place.next? anyModifier t rest =
      if t.kind = .lparen then some (.nested 0) else anyModifier t rest) :
    modifiers anyModifier place tokens = behindName tokens := by
  cases tokens with
  | nil => rfl
  | cons t rest =>
      change _ = if t.kind = .lparen then modifiers anyModifier (.nested 0) rest else _
      rw [modifiers, h t rest rfl]
      by_cases hopens : t.kind = .lparen
      · simp only [if_pos hopens]
      · simp only [if_neg hopens, modifiers, ModifierPlace.next?]

theorem modifiers_name {tokens : List Token} (h : (kindAt tokens 0).isIdentifier = false) :
    modifiers anyModifier .name tokens = behindName tokens := by
  refine modifiers_eq_behindName ?_
  rintro t rest rfl
  exact if_neg (Bool.eq_false_iff.mp h)

theorem modifiers_named {tokens : List Token} (h : kindAt tokens 0 ≠ .dot) :
    modifiers anyModifier .named tokens = behindName tokens := by
  refine modifiers_eq_behindName ?_
  rintro t rest rfl
  exact if_neg h

/-- One step of the walk. -/
theorem modifiers_step {place place' : ModifierPlace} {tokens : List Token}
    (h : ∀ t rest, tokens = t :: rest → place.next? anyModifier t rest = some place') :
    modifiers anyModifier place tokens = modifiers anyModifier place' tokens.tail := by
  cases tokens with
  | nil => rfl
  | cons t rest => rw [modifiers, h t rest rfl, List.tail_cons]

/-- One step of the walk, for a cursor that goes along. -/
theorem modifiers_advance {place place' : ModifierPlace} {c : Cursor}
    (h : ∀ t rest, c.rest = t :: rest → place.next? anyModifier t rest = some place') :
    modifiers anyModifier place c.rest = modifiers anyModifier place' c.advance.rest := by
  rw [Cursor.advance_rest]
  exact modifiers_step h

theorem modifiers_annotated {tokens : List Token}
    (h : isAnnotationStart (kindAt tokens 0) (kindAt tokens 1) = true) :
    modifiers anyModifier .between tokens = modifiers anyModifier .name tokens.tail := by
  refine modifiers_step ?_
  rintro t rest rfl
  exact if_pos h

theorem modifiers_modifier {tokens : List Token}
    (h : isAnnotationStart (kindAt tokens 0) (kindAt tokens 1) = false)
    (h' : isModifier (kindAt tokens 0) (kindAt tokens 1) = true) :
    modifiers anyModifier .between tokens = modifiers anyModifier .between tokens.tail := by
  refine modifiers_step ?_
  rintro t rest rfl
  exact (if_neg (Bool.eq_false_iff.mp h)).trans (if_pos h')

theorem modifiers_done {tokens : List Token}
    (h : isAnnotationStart (kindAt tokens 0) (kindAt tokens 1) = false)
    (h' : isModifier (kindAt tokens 0) (kindAt tokens 1) = false) :
    modifiers anyModifier .between tokens = tokens := by
  cases tokens with
  | nil => rfl
  | cons t rest =>
      have hnone : anyModifier t rest = none :=
        (if_neg (Bool.eq_false_iff.mp h)).trans (if_neg (Bool.eq_false_iff.mp h'))
      simp only [modifiers, ModifierPlace.next?, hnone]

end Skim

namespace Rule

/-- Pairs of brackets are read up to where a skim over them ends. -/
theorem Reads.dims_rest {frame frame' : Frame} {c c' : Cursor} (h : dims.Reads frame c frame' c') :
    c'.rest = brackets c.rest := by
  refine h.induct (fun r _ c _ c' => r matches .dims → c'.rest = brackets c.rest) ?_ rfl
  intro r frame c frame' c' hform hr
  cases r with
  | dims =>
      rcases hform with ⟨hpair, _, _, ⟨_, _, ⟨_, rfl⟩, _, rfl⟩, hmore⟩ | ⟨hnone, _, rfl⟩
      · rw [hmore rfl, Cursor.advance_rest, Cursor.advance_rest]
        match hrest : c.rest with
        | [] => rfl
        | [t] => rw [hrest] at hpair; simp [Look.holds, kindAt] at hpair
        | t :: u :: rest =>
            rw [brackets, if_pos (by simpa [Look.holds, kindAt, hrest] using hpair)]
            rfl
      · match hrest : c'.rest with
        | [] => rfl
        | [t] => rfl
        | t :: u :: rest =>
            rw [brackets, if_neg (by simpa [Look.holds, kindAt, hrest] using hnone)]
  | _ => cases hr

/-- How far a rule for modifiers has come on the way that a skim goes. -/
def KeepsSkim : Behaviour := fun r _ c _ c' =>
  match r with
  | modifiers | modifierRest => c'.rest = Skim.modifiers anyModifier .between c.rest
  | annotationUse =>
    Skim.modifiers anyModifier .name c.rest.tail = Skim.modifiers anyModifier .between c'.rest
  | qualifiedName false => Skim.modifiers anyModifier .name c.rest = behindName c'.rest
  | nameRest false => Skim.modifiers anyModifier .named c.rest = behindName c'.rest
  | nested depth =>
    Skim.modifiers anyModifier (.nested depth) c.rest = Skim.modifiers anyModifier .between c'.rest
  | _ => True

theorem Reads.keepsSkim {r : Rule} {frame frame' : Frame} {c c' : Cursor}
    (h : r.Reads frame c frame' c') (hsolid : c.Solid) : KeepsSkim r frame c frame' c' := by
  refine h.induct_reads (fun r frame c frame' c' => c.Solid → KeepsSkim r frame c frame' c') ?_
    hsolid
  intro r frame c frame' c' hform hsolid
  have hadvance : c.advance.Solid := (Cursor.onward_advance c).solid hsolid
  cases r with
  | modifiers =>
      rcases hform with ⟨_, _, ⟨_, hrule, _⟩, _⟩ | ⟨hnone, _, rfl⟩
      · exact hrule.2 hsolid
      · simp only [Look.holds, Bool.or_eq_false_iff] at hnone
        exact (modifiers_done hnone.1 hnone.2).symm
  | modifierRest =>
      rcases hform with ⟨hstart, _, between, ⟨_, ⟨hreads, hannotated⟩, _⟩, hmore⟩ |
          ⟨hnot, ⟨hmodifier, _, _, ⟨_, rfl⟩, hmore⟩ | ⟨hnot', _, rfl⟩⟩
      · exact (hmore.2 (hreads.onward.solid hsolid)).trans
          ((modifiers_annotated hstart).trans (hannotated hsolid)).symm
      · refine (hmore.2 hadvance).trans ?_
        rw [Cursor.advance_rest]
        exact (modifiers_modifier hnot hmodifier).symm
      · exact (modifiers_done hnot hnot').symm
  | annotationUse =>
      obtain ⟨_, ⟨_, between, ⟨_, _, ⟨_, rfl⟩, hreads, hname⟩, harguments⟩, _⟩ := hform
      have hname' : Skim.modifiers anyModifier .name c.advance.rest = behindName between.rest :=
        hname hadvance
      have hbetween := hreads.onward.solid hadvance
      change Skim.modifiers anyModifier .name c.rest.tail = _
      rw [← Cursor.advance_rest, hname']
      rcases harguments with ⟨hopens, _, _, ⟨_, rfl⟩, hnested⟩ | ⟨hnot, _, rfl⟩
      · refine Eq.trans ?_ (hnested.2 ((Cursor.onward_advance between).solid hbetween))
        rw [behindName, if_pos (by simpa [Look.holds] using hopens), Cursor.advance_rest]
      · exact if_neg (by simpa [Look.holds] using hnot)
  | qualifiedName star =>
      cases star with
      | true => trivial
      | false =>
          rcases hform with ⟨hname, _, _, ⟨_, rfl⟩, hmore⟩ | ⟨hnot, _, rfl⟩
          · refine (modifiers_advance fun t rest hrest => ?_).trans (hmore.2 hadvance)
            rw [hrest] at hname
            exact if_pos hname
          · exact modifiers_name hnot
  | nameRest star =>
      cases star with
      | true => trivial
      | false =>
          change Skim.modifiers anyModifier .named c.rest = behindName c'.rest
          rcases hform with ⟨hdot, hpart⟩ | ⟨hnot, _, rfl⟩
          · have hstep : Skim.modifiers anyModifier .named c.rest =
                Skim.modifiers anyModifier .name c.advance.rest := by
              refine modifiers_advance fun t rest hrest => if_pos ?_
              simpa [Look.holds, kindAt, hrest] using hdot
            rw [hstep]
            rcases hpart with ⟨hname, _, _, ⟨_, _, ⟨_, rfl⟩, _, rfl⟩, hmore⟩ |
                ⟨hnot, ⟨hstar, _⟩ | ⟨_, _, _, ⟨_, rfl⟩, _, rfl⟩⟩
            · have hbehind := hmore.2 ((Cursor.onward_advance _).solid hadvance)
              refine (modifiers_advance fun t rest hrest => ?_).trans hbehind
              rw [Look.holds, ← kindAt_tail, ← Cursor.advance_rest, hrest] at hname
              exact if_pos hname
            · cases hstar
            · refine modifiers_name ?_
              rw [Cursor.advance_rest, kindAt_tail]
              exact hnot
          · exact modifiers_named (by simpa [Look.holds] using hnot)
  | nested depth =>
      change Skim.modifiers anyModifier (.nested depth) c.rest = _
      rcases hform with ⟨hend, _, rfl⟩ | ⟨_, ⟨hopens, _, _, ⟨_, rfl⟩, hmore⟩ | ⟨hnot, hrest⟩⟩
      · rw [Cursor.rest_eq_nil_of_eof hsolid hend]
        rfl
      · refine (modifiers_advance fun t rest hrest => ?_).trans (hmore.2 hadvance)
        exact if_pos (by simpa [Look.holds, kindAt, hrest] using hopens)
      · simp only [Look.holds, List.contains_cons, List.contains_nil, Bool.or_false,
          beq_eq_false_iff_ne] at hnot
        rcases hrest with ⟨hcloses, _, _, ⟨_, rfl⟩, hmore⟩ | ⟨hnot', _, _, ⟨_, rfl⟩, hmore⟩
        · simp only [Look.holds, List.contains_cons, List.contains_nil, Bool.or_false,
            beq_iff_eq] at hcloses
          have hstep : ∀ t rest, c.rest = t :: rest →
              (ModifierPlace.nested depth).next? anyModifier t rest =
                some (if depth = 0 then .between else .nested (depth - 1)) := by
            intro t rest hrest
            rw [hrest] at hnot hcloses
            cases depth <;> exact (if_neg hnot).trans (if_pos hcloses)
          cases depth with
          | zero =>
              obtain ⟨_, rfl⟩ := hmore
              exact modifiers_advance hstep
          | succ depth => exact (modifiers_advance hstep).trans (hmore.2 hadvance)
        · simp only [Look.holds, List.contains_cons, List.contains_nil, Bool.or_false,
            beq_eq_false_iff_ne] at hnot'
          refine (modifiers_advance fun t rest hrest => ?_).trans (hmore.2 hadvance)
          rw [hrest] at hnot hnot'
          exact (if_neg hnot).trans (if_neg hnot')
  | _ => trivial

/-- Modifiers are read up to where a skim over them ends. -/
theorem Reads.modifiers_rest {frame frame' : Frame} {c c' : Cursor}
    (h : Rule.modifiers.Reads frame c frame' c') (hsolid : c.Solid) :
    c'.rest = Skim.modifiers anyModifier .between c.rest := h.keepsSkim hsolid

end Rule

end DotCompletion
