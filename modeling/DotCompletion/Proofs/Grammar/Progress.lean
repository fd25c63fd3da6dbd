import Mathlib.Algebra.GroupWithZero.Nat
import DotCompletion.Proofs.Grammar.Reads

/-!
# Reading moves on and ends

The tokens ahead are no measure of what is left to read, because a sign can be
cut in two while it is read. Their bytes are: cutting keeps them, and taking a
token leaves fewer. So a run ends if rules that take nothing cannot refer to
each other in a circle. Which rules a form can reach before it takes a token is
found by looking at the form alone: once for a cursor in front of a token, once
for a cursor at the end of the input.
-/

namespace DotCompletion

/-- A token that can be ahead of a cursor: it has text, it does not mark the end
of the input, and a sign that can be cut is spelled like its kind. -/
structure Token.Solid (t : Token) : Prop where
  text : t.literal ≠ []
  kind : t.kind ≠ .eof
  spelled : Cursor.splittable.contains t.kind = true → t.literal = Bytes.ofString t.kind.name

namespace Cursor

/-- The bytes of the tokens ahead. -/
def left (c : Cursor) : Nat := (c.rest.map fun t => t.literal.length).sum

/-- All tokens ahead are solid. -/
def Solid (c : Cursor) : Prop := ∀ t ∈ c.rest, t.Solid

theorem Solid.next {c : Cursor} (hsolid : c.Solid) (hrest : c.rest ≠ []) : c.next.Solid := by
  cases hc : c.rest with
  | nil => exact absurd hc hrest
  | cons t rest =>
      simp only [Cursor.next, hc, List.head?_cons, Option.getD_some]
      exact hsolid t (by simp [hc])

/-- The spelling of a sign that can be cut: a bracket in front of the spelling of
another sign. -/
theorem splittable_spelling : ∀ k ∈ splittable,
    ∃ tail, Bytes.ofString k.name = '>'.toUInt8 :: tail ∧ tail ≠ [] ∧
      TokenKind.ofSign tail ≠ .eof ∧ tail = Bytes.ofString (TokenKind.ofSign tail).name := by
  have htable : ∀ k ∈ splittable,
      Bytes.ofString k.name = '>'.toUInt8 :: (Bytes.ofString k.name).tail ∧
      (Bytes.ofString k.name).tail ≠ [] ∧
      TokenKind.ofSign (Bytes.ofString k.name).tail ≠ .eof ∧
      (Bytes.ofString k.name).tail =
        Bytes.ofString (TokenKind.ofSign (Bytes.ofString k.name).tail).name := by decide
  exact fun k hk => ⟨_, htable k hk⟩

/-- The text of a sign is a bracket in front of the text behind it. -/
theorem literal_eq_cons {t : Token} (hcut : splittable.contains t.kind = true)
    (hsolid : t.Solid) : t.literal = '>'.toUInt8 :: (behindAngle t).literal := by
  obtain ⟨tail, hliteral, -⟩ := splittable_spelling t.kind (by simpa using hcut)
  rw [← hsolid.spelled hcut] at hliteral
  simp only [behindAngle, hliteral, List.drop_succ_cons, List.drop_zero]

theorem angleOf_solid (t : Token) : (angleOf t).Solid where
  text := List.cons_ne_nil _ _
  kind := by simp [angleOf]
  spelled := fun h => absurd h (by simp [angleOf, splittable])

theorem behindAngle_solid {t : Token} (hcut : splittable.contains t.kind = true)
    (hsolid : t.Solid) : (behindAngle t).Solid := by
  obtain ⟨tail, hliteral, hne, hkind, htail⟩ :=
    splittable_spelling t.kind (by simpa using hcut)
  rw [← hsolid.spelled hcut] at hliteral
  have hbehind : (behindAngle t).literal = tail := by simp [behindAngle, hliteral]
  have hsign : (behindAngle t).kind = TokenKind.ofSign tail := by simp [behindAngle, hliteral]
  exact ⟨hbehind ▸ hne, hsign ▸ hkind, fun _ => by rw [hbehind, hsign]; exact htail⟩

/-- How a cursor stands to one that reading starts from. -/
structure Onward (c c' : Cursor) : Prop where
  eof : c'.eof = c.eof
  taken_le : c.taken ≤ c'.taken
  ended : c.rest = [] → c'.rest = []
  /-- Without a token taken there is as much ahead, and the next token is the
  same unless it was cut. -/
  stayed : c'.taken = c.taken →
    (c'.rest = [] → c.rest = []) ∧
      (splittable.contains c.next.kind = false → c'.rest = c.rest)
  /-- Without a token taken the cursor stands in the same place. -/
  place : c'.taken = c.taken →
    c'.next.span.start = c.next.span.start ∧ c'.last = c.last
  solid : c.Solid → c'.Solid
  stayed_left : c.Solid → c'.taken = c.taken → c'.left = c.left
  moved_left : c.Solid → c.taken < c'.taken → c'.left < c.left

namespace Onward

theorem refl (c : Cursor) : Onward c c where
  eof := rfl
  taken_le := Nat.le_refl _
  ended := id
  stayed := fun _ => ⟨id, fun _ => rfl⟩
  place := fun _ => ⟨rfl, rfl⟩
  solid := id
  stayed_left := fun _ _ => rfl
  moved_left := fun _ h => absurd h (Nat.lt_irrefl _)

theorem next_eq {c c' : Cursor} (h : Onward c c') (hrest : c'.rest = c.rest) :
    c'.next = c.next := by
  rw [next, next, hrest, h.eof]

theorem trans {c₁ c₂ c₃ : Cursor} (h₁ : Onward c₁ c₂) (h₂ : Onward c₂ c₃) : Onward c₁ c₃ where
  eof := h₂.eof.trans h₁.eof
  taken_le := Nat.le_trans h₁.taken_le h₂.taken_le
  ended := h₂.ended ∘ h₁.ended
  stayed := by
    intro htaken
    have h₁taken : c₂.taken = c₁.taken := by
      have := h₁.taken_le
      have := h₂.taken_le
      omega
    obtain ⟨hend₁, hsame₁⟩ := h₁.stayed h₁taken
    obtain ⟨hend₂, hsame₂⟩ := h₂.stayed (htaken.trans h₁taken.symm)
    refine ⟨hend₁ ∘ hend₂, fun hcut => ?_⟩
    have hrest := hsame₁ hcut
    rw [← h₁.next_eq hrest] at hcut
    exact (hsame₂ hcut).trans hrest
  place := by
    intro htaken
    have h₁le := h₁.taken_le
    have h₂le := h₂.taken_le
    obtain ⟨hstart₁, hlast₁⟩ := h₁.place (by omega)
    obtain ⟨hstart₂, hlast₂⟩ := h₂.place (by omega)
    exact ⟨hstart₂.trans hstart₁, hlast₂.trans hlast₁⟩
  solid := h₂.solid ∘ h₁.solid
  stayed_left := by
    intro hsolid htaken
    have h₁le := h₁.taken_le
    have h₂le := h₂.taken_le
    rw [h₂.stayed_left (h₁.solid hsolid) (by omega), h₁.stayed_left hsolid (by omega)]
  moved_left := by
    intro hsolid htaken
    have h₁le := h₁.taken_le
    have h₂le := h₂.taken_le
    by_cases h : c₁.taken < c₂.taken
    · have hleft := h₁.moved_left hsolid h
      by_cases h' : c₂.taken < c₃.taken
      · exact Nat.lt_trans (h₂.moved_left (h₁.solid hsolid) h') hleft
      · rwa [h₂.stayed_left (h₁.solid hsolid) (by omega)]
    · rw [← h₁.stayed_left hsolid (by omega)]
      exact h₂.moved_left (h₁.solid hsolid) (by omega)

end Onward

theorem onward_advance (c : Cursor) : Onward c c.advance := by
  unfold advance
  split
  next => exact .refl c
  next t rest hrest =>
      refine
        { eof := rfl, taken_le := Nat.le_succ _, ended := ?_, stayed := ?_, place := ?_,
          solid := ?_, stayed_left := ?_, moved_left := ?_ }
      · intro hend
        rw [hrest] at hend
        cases hend
      · intro htaken
        exact absurd htaken (Nat.succ_ne_self _)
      · intro htaken
        exact absurd htaken (Nat.succ_ne_self _)
      · intro hsolid u hu
        exact hsolid u (by simp [hrest, hu])
      · intro _ htaken
        exact absurd htaken (Nat.succ_ne_self _)
      · intro hsolid _
        have hlength := List.length_pos_iff.mpr (hsolid t (by simp [hrest])).text
        simp only [left, hrest, List.map_cons, List.sum_cons]
        omega

theorem onward_splitAngle (c : Cursor) : Onward c c.splitAngle := by
  unfold splitAngle
  split
  next => exact .refl c
  next t rest hrest =>
      split
      next hcut =>
          refine
            { eof := rfl, taken_le := Nat.le_refl _, ended := ?_, stayed := ?_, place := ?_,
              solid := ?_, stayed_left := ?_, moved_left := ?_ }
          · intro hend
            rw [hrest] at hend
            cases hend
          · intro _
            refine ⟨fun hend => (by simp at hend), fun hnext => ?_⟩
            simp only [next, hrest, List.head?_cons, Option.getD_some] at hnext
            rw [hnext] at hcut
            cases hcut
          · intro _
            simp only [next, hrest, List.head?_cons, Option.getD_some, angleOf, and_self]
          · intro hsolid u hu
            simp only [List.mem_cons] at hu
            rcases hu with rfl | rfl | hu
            · exact angleOf_solid t
            · exact behindAngle_solid hcut (hsolid t (by simp [hrest]))
            · exact hsolid u (by simp [hrest, hu])
          · intro hsolid _
            have hliteral := literal_eq_cons hcut (hsolid t (by simp [hrest]))
            have hangle : (angleOf t).literal = ['>'.toUInt8] := rfl
            simp only [left, hrest, List.map_cons, List.sum_cons, hangle, hliteral,
              List.length_cons, List.length_nil]
            omega
          · intro _ htaken
            exact absurd htaken (Nat.lt_irrefl _)
      next => exact .refl c

end Cursor

open Cursor (Onward)

/-- A form goes on if the rules in it do. -/
theorem Form.Does.onward {goto : Behaviour}
    (hgoto : ∀ r frame c frame' c', goto r frame c frame' c' → Onward c c')
    {f : Form} {frame frame' : Frame} {c c' : Cursor} (h : f.Does goto frame c frame' c') :
    Onward c c' := by
  induction f generalizing frame c frame' c' with
  | done | missing | discard =>
      obtain ⟨_, rfl⟩ := h
      exact .refl _
  | take =>
      obtain ⟨_, rfl⟩ := h
      exact Cursor.onward_advance _
  | splitAngle =>
      obtain ⟨_, rfl⟩ := h
      exact Cursor.onward_splitAngle _
  | seq first second ihfirst ihsecond =>
      obtain ⟨middle, between, hfirst, hsecond⟩ := h
      exact (ihfirst hfirst).trans (ihsecond hsecond)
  | choose look yes no ihyes ihno =>
      rcases h with ⟨_, hyes⟩ | ⟨_, hno⟩
      · exact ihyes hyes
      · exact ihno hno
  | enclose label body ih | within body ih =>
      obtain ⟨children, hbody, _⟩ := h
      exact ih hbody
  | orElse first second ihfirst ihsecond | ifStuck first second ihfirst ihsecond =>
      obtain ⟨nodes, between, hfirst, ⟨_, hsecond⟩ | ⟨_, _, rfl⟩⟩ := h
      · exact (ihfirst hfirst).trans (ihsecond hsecond)
      · exact ihfirst hfirst
  | rule name => exact hgoto _ _ _ _ _ h

/-- Reading never goes back. -/
theorem Rule.Reads.onward {r : Rule} {frame frame' : Frame} {c c' : Cursor}
    (h : r.Reads frame c frame' c') : Onward c c' :=
  h.induct (fun _ _ c _ c' => Onward c c') fun _ _ _ _ _ hform =>
    hform.onward fun _ _ _ _ _ => id

end DotCompletion
