import Mathlib.Data.List.Basic
import DotCompletion.Template.Expansion

/-!
# Escaped text is read as it was

An editor reads a snippet byte by byte. A dollar sign or a closing brace means something,
and a backslash in front of one of them, or of another backslash, makes it plain. In escaped
text every such byte has a backslash of its own in front of it, so wherever the text stands in
a snippet it is read back whole, and what follows is read as if the text were not there
(`Snippet.escape_lossless`).
-/

namespace DotCompletion

namespace Snippet

/-- What a reader makes of a byte: text, or a sign that is not to be shown. -/
inductive Glyph where
  | plain (b : UInt8)
  | sign (b : UInt8)
deriving DecidableEq, Repr

/-- A reader of snippets: what was read, and whether a backslash waits for the byte that tells
what it means. -/
structure Reader where
  glyphs : List Glyph
  pending : Bool
deriving DecidableEq, Repr

/-- A backslash makes this byte plain: another backslash, a dollar sign or a closing brace. -/
def isSpecial (b : UInt8) : Bool :=
  b == '\\'.toUInt8 || b == '$'.toUInt8 || b == '\x7d'.toUInt8

namespace Reader

/-- The reader in front of a snippet. -/
def start : Reader := ⟨[], false⟩

/-- Read a byte. A backslash in front of a byte that means nothing is text, and so is the
byte. -/
def step : Reader → UInt8 → Reader
  | ⟨glyphs, true⟩, b =>
    if isSpecial b then ⟨glyphs ++ [.plain b], false⟩
    else ⟨glyphs ++ [.plain '\\'.toUInt8, .plain b], false⟩
  | ⟨glyphs, false⟩, b =>
    if b = '\\'.toUInt8 then ⟨glyphs, true⟩
    else if isSpecial b then ⟨glyphs ++ [.sign b], false⟩
    else ⟨glyphs ++ [.plain b], false⟩

/-- Read a part of a snippet. -/
def run (r : Reader) (input : Bytes) : Reader := input.foldl step r

theorem run_append (r : Reader) (front back : Bytes) :
    r.run (front ++ back) = (r.run front).run back := List.foldl_append

end Reader

open Reader

theorem escape_append (front back : Bytes) : escape (front ++ back) = escape front ++ escape back :=
  List.flatMap_append

theorem any_special (b : UInt8) : (special.any fun c => c.toUInt8 == b) = isSpecial b := by
  simp only [special, List.any_cons, List.any_nil, isSpecial, Bool.or_false, Bool.or_assoc,
    @BEq.comm _ _ _ b]

theorem escape_singleton (b : UInt8) :
    escape [b] = if isSpecial b then ['\\'.toUInt8, b] else [b] := by
  rw [escape, List.flatMap_singleton, any_special]

/-- A byte is read from its escaped form. -/
theorem run_escape_singleton (glyphs : List Glyph) (b : UInt8) :
    run ⟨glyphs, false⟩ (escape [b]) = ⟨glyphs ++ [Glyph.plain b], false⟩ := by
  rw [escape_singleton]
  by_cases hspecial : isSpecial b = true
  · rw [if_pos hspecial]
    have hpending : step ⟨glyphs, false⟩ '\\'.toUInt8 = ⟨glyphs, true⟩ := by
      simp only [step, if_true]
    rw [run, List.foldl_cons, hpending]
    exact if_pos hspecial
  · have hslash : b ≠ '\\'.toUInt8 := by
      rintro rfl
      exact hspecial (by decide)
    rw [if_neg hspecial]
    exact (if_neg hslash).trans (if_neg hspecial)

/-- So is a text, behind anything that leaves no backslash waiting. -/
theorem run_escape (glyphs : List Glyph) (text : Bytes) :
    run ⟨glyphs, false⟩ (escape text) = ⟨glyphs ++ text.map .plain, false⟩ := by
  induction text generalizing glyphs with
  | nil => exact congrArg (Reader.mk · false) (List.append_nil glyphs).symm
  | cons b text ih =>
      rw [← List.singleton_append, escape_append, run_append, run_escape_singleton, ih,
        List.append_assoc, List.singleton_append, List.singleton_append, List.map_cons]

theorem plain_injective : Function.Injective Glyph.plain := fun _ _ => Glyph.plain.inj

/-- Escaped text is read back whole, byte for byte and without a sign, whatever follows it: no
backslash is left waiting behind it. Different texts are escaped differently, and parts of a
text one by one. -/
theorem escape_lossless :
    (∀ (text : Bytes) (glyphs : List Glyph),
      run ⟨glyphs, false⟩ (escape text) = ⟨glyphs ++ text.map .plain, false⟩) ∧
    (∀ text behind : Bytes,
      start.run (escape text ++ behind) = run ⟨text.map .plain, false⟩ behind) ∧
    Function.Injective escape ∧
    (∀ front back : Bytes, escape (front ++ back) = escape front ++ escape back) := by
  have hread : ∀ text, start.run (escape text) = ⟨text.map .plain, false⟩ := run_escape []
  refine ⟨fun text glyphs => run_escape glyphs text, fun text behind => ?_, fun text other h => ?_,
    escape_append⟩
  · rw [run_append, hread]
  · have hglyphs : text.map Glyph.plain = other.map Glyph.plain := by
      have hsame := (hread text).symm.trans ((congrArg start.run h).trans (hread other))
      exact congrArg Reader.glyphs hsame
    exact plain_injective.list_map hglyphs

end Snippet

end DotCompletion
