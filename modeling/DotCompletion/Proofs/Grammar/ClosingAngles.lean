import DotCompletion.Proofs.Grammar.Sketch

/-!
# Closing brackets in one sign

Two or three closing angle brackets without anything between them are read as one sign, which the
grammar cuts where it needs a bracket. A row fuses another if it is the same up to that
(`Lexeme.Fuses`). `Form.TurnsApart` says which sketches a form makes in front of every row that
fuses the one given, so that a proof about it never looks at how brackets were fused.
-/

namespace DotCompletion

open Skim

namespace Lexeme

/-- The closing brackets in a sign; anything else stays as it is. -/
def apart (l : Lexeme) : List Lexeme :=
  if l = sign .shiftRight then [sign .greater, sign .greater]
  else if l = sign .shiftRightZero then [sign .greater, sign .greater, sign .greater]
  else [l]

/-- The row is the other one with some of its closing brackets in one sign. -/
def Fuses (row plain : List Lexeme) : Prop := row.flatMap apart = plain

/-- The kinds that can stand where a plain row has a given one. -/
def fused (kind : TokenKind) : List TokenKind :=
  if kind = .greater then [.greater, .shiftRight, .shiftRightZero] else [kind]

/-- Cut a single bracket off the first sign, as `Cursor.splitAngle` does. -/
def cut : List Lexeme → List Lexeme
  | [] => []
  | l :: row =>
    if l.kind ∈ Cursor.splittable then
      ⟨.greater, Bytes.ofString ">"⟩ :: ⟨.ofSign (l.text.drop 1), l.text.drop 1⟩ :: row
    else l :: row

variable {row row' plain plain' : List Lexeme} {l : Lexeme}

theorem apart_cases (l : Lexeme) :
    (l = sign .shiftRight ∧ l.apart = [sign .greater, sign .greater]) ∨
    (l = sign .shiftRightZero ∧ l.apart = [sign .greater, sign .greater, sign .greater]) ∨
    l.apart = [l] := by
  by_cases hshift : l = sign .shiftRight
  · exact .inl ⟨hshift, if_pos hshift⟩
  · by_cases hzero : l = sign .shiftRightZero
    · exact .inr (.inl ⟨hzero, (if_neg hshift).trans (if_pos hzero)⟩)
    · exact .inr (.inr ((if_neg hshift).trans (if_neg hzero)))

namespace Fuses

theorem nil : Fuses [] [] := rfl

theorem cons (l : Lexeme) (h : Fuses row plain) : Fuses (l :: row) (l.apart ++ plain) := by
  rw [Fuses, List.flatMap_cons, h]

/-- Rows that fuse different rows differ. -/
theorem ne (h : Fuses row plain) (h' : Fuses row' plain') (hne : plain ≠ plain') : row ≠ row' := by
  rintro rfl
  exact hne (Eq.trans (Eq.symm h) h')

theorem eq_nil (h : Fuses row []) : row = [] := by
  cases row with
  | nil => rfl
  | cons l row =>
      rw [Fuses, List.flatMap_cons, List.append_eq_nil_iff] at h
      obtain ⟨-, hl⟩ | ⟨-, hl⟩ | hl := apart_cases l <;> simp [hl] at h

/-- What is no closing bracket stands for itself. -/
theorem exists_cons (h : Fuses row (l :: plain)) (hl : l ≠ sign .greater) :
    ∃ row', row = l :: row' ∧ Fuses row' plain := by
  cases row with
  | nil => cases h
  | cons m row =>
      rw [Fuses, List.flatMap_cons] at h
      obtain ⟨-, hm⟩ | ⟨-, hm⟩ | hm := apart_cases m
      · rw [hm] at h
        exact absurd (List.cons.inj h).1.symm hl
      · rw [hm] at h
        exact absurd (List.cons.inj h).1.symm hl
      · rw [hm] at h
        obtain ⟨rfl, hrow⟩ := List.cons.inj h
        exact ⟨row, rfl, hrow⟩

/-- A row without closing brackets is fused by no other. -/
theorem eq_of_not_mem (h : Fuses row plain) (hplain : sign .greater ∉ plain) : row = plain := by
  induction plain generalizing row with
  | nil => exact h.eq_nil
  | cons l plain ih =>
      obtain ⟨rest, rfl, hrest⟩ := h.exists_cons fun heq => hplain (heq ▸ List.mem_cons_self)
      rw [ih hrest fun hmem => hplain (List.mem_cons_of_mem _ hmem)]

/-- A closing bracket can be cut off. -/
theorem cut (h : Fuses row (sign .greater :: plain)) :
    ∃ row', cut row = sign .greater :: row' ∧ Fuses row' plain := by
  cases row with
  | nil => cases h
  | cons m row =>
      rw [Fuses, List.flatMap_cons] at h
      obtain ⟨rfl, hm⟩ | ⟨rfl, hm⟩ | hm := apart_cases m
      · rw [hm] at h
        refine ⟨sign .greater :: row, by rfl, ?_⟩
        rw [Fuses, List.flatMap_cons]
        exact (List.cons.inj h).2
      · rw [hm] at h
        refine ⟨sign .shiftRight :: row, by rfl, ?_⟩
        rw [Fuses, List.flatMap_cons]
        exact (List.cons.inj h).2
      · rw [hm] at h
        obtain ⟨rfl, hrow⟩ := List.cons.inj h
        exact ⟨row, rfl, hrow⟩

theorem cut_idle (h : Fuses row (l :: plain)) (hl : l.kind ∉ Cursor.splittable)
    (hne : l ≠ sign .greater) : Lexeme.cut row = row := by
  obtain ⟨row', rfl, -⟩ := h.exists_cons hne
  exact if_neg hl

theorem kind_mem (h : Fuses row plain) : kindAt row 0 ∈ fused (kindAt plain 0) := by
  cases row with
  | nil =>
      obtain rfl : [] = plain := h
      decide
  | cons m row =>
      rw [Fuses, List.flatMap_cons] at h
      obtain ⟨rfl, hm⟩ | ⟨rfl, hm⟩ | hm := apart_cases m
      · rw [← h, hm]
        exact show TokenKind.shiftRight ∈ fused .greater by decide
      · rw [← h, hm]
        exact show TokenKind.shiftRightZero ∈ fused .greater by decide
      · rw [← h, hm]
        by_cases hkind : m.kind = .greater <;> simp [fused, hkind]

/-- Where the second part begins with something else than a bracket, no sign belongs to both. -/
theorem exists_append (h : Fuses row (plain ++ plain'))
    (hhead : ∀ l ∈ plain'.head?, l ≠ sign .greater) :
    ∃ front back, row = front ++ back ∧ Fuses front plain ∧ Fuses back plain' := by
  induction row generalizing plain with
  | nil =>
      obtain ⟨rfl, rfl⟩ := List.append_eq_nil_iff.mp (Eq.symm h)
      exact ⟨[], [], rfl, nil, nil⟩
  | cons m row ih =>
      rw [Fuses, List.flatMap_cons, List.append_eq_append_iff] at h
      rcases h with ⟨more, rfl, hrow⟩ | ⟨more, hm, rfl⟩
      · obtain ⟨front, back, rfl, hfront, hback⟩ := ih hrow
        exact ⟨m :: front, back, rfl, congrArg _ hfront, hback⟩
      · cases more with
        | nil =>
            rw [List.append_nil] at hm
            exact ⟨[m], row, rfl, by rw [Fuses, List.flatMap_singleton, hm], rfl⟩
        | cons l more =>
            have hmem : l ∈ m.apart := by simp [hm]
            have hne := hhead l rfl
            obtain ⟨-, hl⟩ | ⟨-, hl⟩ | hl := apart_cases m
            -- the bracket behind the cut would begin the second part
            · exact absurd (by simpa [hl] using hmem) hne
            · exact absurd (by simpa [hl] using hmem) hne
            · rw [hl] at hm
              obtain ⟨rfl, -⟩ | ⟨-, hnil⟩ := List.singleton_eq_append_iff.mp hm
              · refine ⟨[], m :: row, rfl, nil, ?_⟩
                rw [Fuses, List.flatMap_cons, hl, hm, List.nil_append]
              · cases hnil

end Fuses

end Lexeme

namespace Look

variable {look : Look} {frame : List Sketch} {plain : List Lexeme} {kinds : List TokenKind}

/-- The answer in front of every row that fuses the given one. -/
def AnswersApart (look : Look) (frame : List Sketch) (plain : List Lexeme) (answer : Bool) : Prop :=
  ∀ row, Lexeme.Fuses row plain → look.Answers frame row answer

theorem AnswersApart.next (h : Lexeme.kindAt plain 0 ∈ kinds)
    (hne : Lexeme.kindAt plain 0 ≠ .greater) : (next kinds).AnswersApart frame plain true := by
  intro row hrow
  apply Answers.next
  have hkind := hrow.kind_mem
  rw [Lexeme.fused, if_neg hne, List.mem_singleton] at hkind
  rwa [hkind]

theorem AnswersApart.next_not (h : ∀ k ∈ Lexeme.fused (Lexeme.kindAt plain 0), k ∉ kinds) :
    (Look.next kinds).AnswersApart frame plain false :=
  fun _ hrow => .next_not (h _ hrow.kind_mem)

/-- A look that sees the first lexeme only. -/
theorem AnswersApart.of_first {l : Lexeme} {answer : Bool} (hl : l ≠ Lexeme.sign .greater)
    (h : ∀ nodes t rest, t.kind = l.kind → look.holds nodes (t :: rest) = answer) :
    look.AnswersApart frame (l :: plain) answer := by
  rintro row hrow nodes tokens - rfl
  obtain ⟨row, hcons, -⟩ := hrow.exists_cons hl
  obtain ⟨t, rest, rfl, ht, -⟩ := List.map_eq_cons_iff.mp hcons
  exact h nodes t rest (congrArg Lexeme.kind ht)

theorem AnswersApart.second_not {l : Lexeme} (hl : l ≠ Lexeme.sign .greater)
    (h : ∀ k ∈ Lexeme.fused (Lexeme.kindAt plain 0), k ∉ kinds) :
    (Look.second kinds).AnswersApart frame (l :: plain) false := by
  intro row hrow
  obtain ⟨row, rfl, hrest⟩ := hrow.exists_cons hl
  exact .second_not (h _ hrest.kind_mem)

theorem AnswersApart.both_not_second {first second : Look}
    (h : second.AnswersApart frame plain false) :
    (Look.both first second).AnswersApart frame plain false :=
  fun row hrow => .both_not_right (h row hrow)

theorem AnswersApart.both_not_next (second : Look)
    (h : ∀ k ∈ Lexeme.fused (Lexeme.kindAt plain 0), k ∉ kinds) :
    (Look.both (.next kinds) second).AnswersApart frame plain false :=
  fun row hrow => .both_not_left (AnswersApart.next_not h row hrow)

theorem AnswersApart.next_second {kinds' : List TokenKind} {l m : Lexeme} (h : l.kind ∈ kinds)
    (h' : m.kind ∈ kinds') (hl : l ≠ Lexeme.sign .greater) (hm : m ≠ Lexeme.sign .greater) :
    (Look.both (.next kinds) (.second kinds')).AnswersApart frame (l :: m :: plain) true := by
  intro row hrow
  obtain ⟨rest, rfl, hrest⟩ := hrow.exists_cons hl
  obtain ⟨back, rfl, -⟩ := hrest.exists_cons hm
  rintro nodes tokens - htokens
  rw [holds, holds, holds, kindAt_eq_lexeme, kindAt_eq_lexeme, htokens, Bool.and_eq_true,
    List.contains_iff_mem, List.contains_iff_mem]
  exact ⟨h, h'⟩

end Look

namespace Form

open Lexeme (Fuses sign)

variable {f g : Form} {frame frame' frame'' : List Sketch}
  {row row' plain plain' plain'' : List Lexeme}

theorem Turns.splitAngle : Form.splitAngle.Turns frame row frame (Lexeme.cut row) := by
  rintro nodes c hnodes rfl
  refine ⟨nodes, c.splitAngle, ⟨rfl, rfl⟩, hnodes, ?_⟩
  rw [Cursor.splitAngle, Cursor.row, Cursor.row]
  cases hrest : c.rest with
  | nil => simp [hrest, Lexeme.cut]
  | cons t rest =>
      by_cases hcut : t.kind ∈ Cursor.splittable
      · simp [Lexeme.cut, Token.lexeme, hcut, Cursor.angleOf, Cursor.behindAngle]
      · simp [hrest, Lexeme.cut, Token.lexeme, hcut]

/-- The conditions of the first choices of a form. -/
def firstLooks : Nat → Form → List Look
  | n + 1, choose look _ second => look :: second.firstLooks n
  | _, _ => []

/-- What is left of a form behind its first choices. -/
def otherwise : Nat → Form → Form
  | n + 1, choose _ _ second => second.otherwise n
  | _, f => f

/-- In front of every row that fuses the given one the form makes the same sketches and leaves a
row that fuses what is left. -/
def TurnsApart (f : Form) (frame : List Sketch) (plain : List Lexeme) (frame' : List Sketch)
    (plain' : List Lexeme) : Prop :=
  ∀ row, Fuses row plain → ∃ row', Fuses row' plain' ∧ f.Turns frame row frame' row'

namespace TurnsApart

theorem done : Form.done.TurnsApart frame plain frame plain :=
  fun row hrow => ⟨row, hrow, .done⟩

theorem take (kind : NodeKind) {l : Lexeme} (hl : l ≠ sign .greater) :
    (Form.take kind).TurnsApart frame (l :: plain) (frame ++ [Sketch.leaf kind l]) plain := by
  intro row hrow
  obtain ⟨row', rfl, hrow'⟩ := hrow.exists_cons hl
  exact ⟨row', hrow', .take kind l⟩

theorem token {l : Lexeme} (hl : l ≠ sign .greater) :
    Form.token.TurnsApart frame (l :: plain) (frame ++ [Sketch.token l]) plain := take .token hl

theorem seq (hf : f.TurnsApart frame plain frame' plain')
    (hg : g.TurnsApart frame' plain' frame'' plain'') :
    (f ++ g).TurnsApart frame plain frame'' plain'' := by
  intro row hrow
  obtain ⟨middle, hmiddle, hfirst⟩ := hf row hrow
  obtain ⟨row', hrow', hsecond⟩ := hg middle hmiddle
  exact ⟨row', hrow', hfirst.seq hsecond⟩

/-- What is made of a form's result for every row, is made for every row that fuses a plain one. -/
theorem lift (h : f.TurnsApart frame plain frame' plain') {frame₂ frame₂' : List Sketch}
    (hturns : ∀ row row', Fuses row plain → f.Turns frame row frame' row' →
      g.Turns frame₂ row frame₂' row') :
    g.TurnsApart frame₂ plain frame₂' plain' := by
  intro row hrow
  obtain ⟨row', hrow', hf⟩ := h row hrow
  exact ⟨row', hrow', hturns row row' hrow hf⟩

theorem node (kind : NodeKind) (h : f.TurnsApart frame plain frame' plain') :
    (Form.node kind f).TurnsApart frame plain [.node kind frame'] plain' :=
  h.lift fun _ _ _ hf => hf.node kind

theorem within (h : f.TurnsApart [] plain frame' plain') (frame : List Sketch) :
    (Form.within f).TurnsApart frame plain (frame ++ frame') plain' :=
  h.lift fun _ _ _ hf => hf.within frame

theorem rule {r : Rule} (h : r.form.TurnsApart frame plain frame' plain') :
    (Form.rule r).TurnsApart frame plain frame' plain' :=
  h.lift fun _ _ _ hf => hf.rule

theorem call {r : Rule} (h : (Form.rule r).TurnsApart [] plain frame' plain')
    (frame : List Sketch) : (Form.call r).TurnsApart frame plain (frame ++ frame') plain' :=
  h.within frame

theorem yes {look : Look} (hlook : look.AnswersApart frame plain true)
    (h : f.TurnsApart frame plain frame' plain') :
    (Form.choose look f g).TurnsApart frame plain frame' plain' :=
  h.lift fun row _ hrow hf => hf.yes (hlook row hrow)

theorem no {look : Look} (hlook : look.AnswersApart frame plain false)
    (h : g.TurnsApart frame plain frame' plain') :
    (Form.choose look f g).TurnsApart frame plain frame' plain' :=
  h.lift fun row _ hrow hg => hg.no (hlook row hrow)

theorem optional {kinds : List TokenKind} (hnext : Lexeme.kindAt plain 0 ∈ kinds)
    (hne : Lexeme.kindAt plain 0 ≠ .greater) (h : f.TurnsApart frame plain frame' plain') :
    (Form.optional kinds f).TurnsApart frame plain frame' plain' :=
  .yes (.next hnext hne) h

theorem optional_idle {kinds : List TokenKind}
    (hnext : ∀ k ∈ Lexeme.fused (Lexeme.kindAt plain 0), k ∉ kinds) (f : Form)
    (frame : List Sketch) : (Form.optional kinds f).TurnsApart frame plain frame plain :=
  .no (.next_not hnext) .done

theorem splitAngle_idle {l : Lexeme} (hl : l.kind ∉ Cursor.splittable) (hne : l ≠ sign .greater) :
    Form.splitAngle.TurnsApart frame (l :: plain) frame (l :: plain) := by
  intro row hrow
  refine ⟨row, hrow, ?_⟩
  have hturns : Form.splitAngle.Turns frame row frame (Lexeme.cut row) := .splitAngle
  rwa [hrow.cut_idle hl hne] at hturns

/-- A closing bracket is found in whatever sign it is. -/
theorem expectAngle : Form.expectAngle.TurnsApart frame (sign .greater :: plain)
    (frame ++ [Sketch.token (sign .greater)]) plain := by
  intro row hrow
  obtain ⟨row', hcut, hrow'⟩ := hrow.cut
  have hsplit : Form.splitAngle.Turns frame row frame (Lexeme.cut row) := .splitAngle
  rw [hcut] at hsplit
  exact ⟨row', hrow', hsplit.seq (.expect rfl)⟩

/-- What a form makes of a row without brackets, it makes of all rows that fuse it. -/
theorem of_turns (h : f.Turns frame plain frame' plain') (hplain : sign .greater ∉ plain)
    (hback : Fuses plain' plain') : f.TurnsApart frame plain frame' plain' := by
  intro row hrow
  obtain rfl := hrow.eq_of_not_mem hplain
  exact ⟨plain', hback, h⟩

/-- The second form is left out where the first takes a token. -/
theorem ifStuck {l : Lexeme} (h : f.TurnsApart frame (l :: plain) frame' plain')
    (hwhole : l.kind ∉ Cursor.splittable) (hne : l ≠ sign .greater)
    (hmoved : plain' ≠ l :: plain) :
    (Form.ifStuck f g).TurnsApart frame (l :: plain) frame' plain' := by
  intro row hrow
  obtain ⟨row', hrow', hf⟩ := h row hrow
  obtain ⟨rest, rfl, -⟩ := hrow.exists_cons hne
  exact ⟨row', hrow', hf.ifStuck hwhole (hrow'.ne hrow hmoved)⟩

/-- The same with a frame of its own for the first form. -/
theorem orElse {l : Lexeme} (h : f.TurnsApart [] (l :: plain) frame' plain')
    (hwhole : l.kind ∉ Cursor.splittable) (hne : l ≠ sign .greater)
    (hmoved : plain' ≠ l :: plain) (frame : List Sketch) :
    (Form.orElse f g).TurnsApart frame (l :: plain) (frame ++ frame') plain' := by
  intro row hrow
  obtain ⟨row', hrow', hf⟩ := h row hrow
  obtain ⟨rest, rfl, -⟩ := hrow.exists_cons hne
  exact ⟨row', hrow', hf.orElse hwhole (hrow'.ne hrow hmoved) frame⟩

/-- The first choices are passed where none of their conditions holds. -/
theorem otherwise (n : Nat) (hnone : ∀ look ∈ f.firstLooks n, look.AnswersApart frame plain false)
    (h : (f.otherwise n).TurnsApart frame plain frame' plain') :
    f.TurnsApart frame plain frame' plain' := by
  induction n generalizing f with
  | zero => cases f <;> exact h
  | succ n ih =>
      cases f with
      | choose look first second =>
          obtain ⟨hlook, hmore⟩ := List.forall_mem_cons.mp hnone
          exact .no hlook (ih hmore h)
      | _ => exact h

end TurnsApart

end Form

end DotCompletion
