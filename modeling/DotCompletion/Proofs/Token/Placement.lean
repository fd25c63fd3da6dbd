import DotCompletion.Proofs.Source.Places
import DotCompletion.Proofs.Token.Reading

/-!
# Where tokens stand

A token stands in the source where its span says, and the tokens of a source
stand one behind the other. Both also hold of the two pieces of a sign that is
cut while it is read.
-/

namespace DotCompletion

namespace Token

/-- The offset of the first byte. -/
def lo (t : Token) : Nat := t.span.start.offset

/-- The offset behind the last byte. -/
def hi (t : Token) : Nat := t.span.stop.offset

theorem lo_endAt (p : Position) : (endAt p).lo = p.offset := rfl

/-- The span of the token marks its text in the source. -/
def Stands (source : Bytes) (t : Token) : Prop :=
  ∃ before behind, source = before ++ (t.literal ++ behind) ∧
    t.span.start = Position.origin.advance before ∧
    t.span.stop = Position.origin.advance (before ++ t.literal)

namespace Stands

variable {source : Bytes} {t : Token}

theorem start_in (h : t.Stands source) : t.span.start.In source := by
  obtain ⟨before, behind, rfl, hstart, _⟩ := h
  exact ⟨before, List.prefix_append _ _, hstart⟩

theorem stop_in (h : t.Stands source) : t.span.stop.In source := by
  obtain ⟨before, behind, rfl, _, hstop⟩ := h
  exact ⟨before ++ t.literal, by simp, hstop⟩

theorem hi_eq (h : t.Stands source) : t.hi = t.lo + t.literal.length := by
  obtain ⟨before, behind, _, hstart, hstop⟩ := h
  rw [hi, lo, hstart, hstop, Position.origin_advance_offset, Position.origin_advance_offset,
    List.length_append]

theorem endAt (source : Bytes) : (Token.endAt (Position.origin.advance source)).Stands source :=
  ⟨source, [], by simp [Token.endAt], rfl, by simp [Token.endAt, Span.point]⟩

theorem first {before rest : Bytes} {b : UInt8} (hsource : source = before ++ b :: rest) :
    (Token.first (Position.origin.advance before) b rest).Stands source := by
  refine ⟨before, (Scan.token b rest).2, ?_, rfl, ?_⟩
  · rw [first_literal_append, hsource]
  · rw [Position.advance_append]
    rfl

/-- The bracket cut off a sign stands where the sign begins. -/
theorem angleOf (h : t.Stands source) (hsolid : t.Solid)
    (hcut : Cursor.splittable.contains t.kind = true) : (Cursor.angleOf t).Stands source := by
  obtain ⟨before, behind, rfl, hstart, _⟩ := h
  refine ⟨before, (Cursor.behindAngle t).literal ++ behind, ?_, hstart, ?_⟩
  · rw [Cursor.literal_eq_cons hcut hsolid]
    rfl
  · rw [Position.advance_append]
    simp only [Cursor.angleOf, hstart]
    rfl

/-- What is left of a sign stands behind the bracket. -/
theorem behindAngle (h : t.Stands source) (hsolid : t.Solid)
    (hcut : Cursor.splittable.contains t.kind = true) :
    (Cursor.behindAngle t).Stands source := by
  obtain ⟨before, behind, rfl, hstart, hstop⟩ := h
  have hliteral := Cursor.literal_eq_cons hcut hsolid
  refine ⟨before ++ ['>'.toUInt8], behind, ?_, ?_, ?_⟩
  · rw [hliteral, List.append_assoc]
    rfl
  · rw [Position.advance_append]
    simp only [Cursor.behindAngle, hstart]
    rfl
  · rw [List.append_assoc, List.singleton_append, ← hliteral]
    exact hstop

end Stands

theorem mem_significant {source : Bytes} {t : Token} (h : t ∈ significant source) :
    ∃ before b rest, source = before ++ b :: rest ∧
      t = first (Position.origin.advance before) b rest :=
  exists_first_of_mem_read (List.mem_filter.mp h).1

/-- No token begins in front of the place where reading began. -/
theorem offset_le_lo_of_mem_read {p : Position} {input : Bytes} {t : Token}
    (h : t ∈ read p input) : p.offset ≤ t.lo := by
  obtain ⟨before, b, rest, _, rfl⟩ := exists_first_of_mem_read h
  simp only [lo, first, Position.advance_offset]
  omega

theorem pairwise_read (p : Position) (input : Bytes) :
    (read p input).Pairwise fun t u => t.hi ≤ u.lo := by
  fun_induction read p input with
  | case1 => exact .nil
  | case2 p b rest t ih =>
      exact .cons (fun u hu => offset_le_lo_of_mem_read hu) ih

/-- The tokens of a source stand one behind the other. -/
theorem pairwise_significant (source : Bytes) :
    (significant source).Pairwise fun t u => t.hi ≤ u.lo :=
  (pairwise_read .origin source).filter _

/-- A token of a source, or a piece of one that was cut. -/
inductive Part (source : Bytes) : Token → Prop
  | whole {t : Token} (h : t ∈ significant source) : Part source t
  | angle {t : Token} (h : Part source t) (hcut : Cursor.splittable.contains t.kind = true) :
      Part source (Cursor.angleOf t)
  | behind {t : Token} (h : Part source t) (hcut : Cursor.splittable.contains t.kind = true) :
      Part source (Cursor.behindAngle t)

namespace Part

variable {source : Bytes} {t : Token}

theorem solid (h : Part source t) : t.Solid := by
  induction h with
  | whole h =>
      obtain ⟨before, b, rest, _, rfl⟩ := mem_significant h
      exact first_solid _ b rest
  | angle => exact Cursor.angleOf_solid _
  | behind _ hcut ih => exact Cursor.behindAngle_solid hcut ih

theorem stands (h : Part source t) : t.Stands source := by
  induction h with
  | whole h =>
      obtain ⟨before, b, rest, hsource, rfl⟩ := mem_significant h
      exact .first hsource
  | angle hpart hcut ih => exact ih.angleOf hpart.solid hcut
  | behind hpart hcut ih => exact ih.behindAngle hpart.solid hcut

theorem lo_lt_hi (h : Part source t) : t.lo < t.hi := by
  have hlength := List.length_pos_iff.mpr h.solid.text
  rw [h.stands.hi_eq]
  omega

/-- Only signs are cut: a token that is none is one of the source. -/
theorem mem_significant_of_not_sign (h : Part source t)
    (hsign : t.kind ∉ .error :: TokenKind.signs) : t ∈ significant source := by
  cases h with
  | whole h => exact h
  | angle => exact absurd (by simp [Cursor.angleOf, TokenKind.signs]) hsign
  | behind => exact absurd (TokenKind.ofSign_mem _) hsign

end Part

end Token

end DotCompletion
