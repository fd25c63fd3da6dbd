import DotCompletion.Proofs.Grammar.SkimmedTypes

/-!
# Names that cannot be names

Every node that stands for a name is made of a token, and of one that can be a name wherever the
grammar has looked at the token first. It does not look at the variable of a loop and at the
variable behind `case`: there it relies on a skim, which has found a type and a name. The leaf can
be made of any token if the type was not read to where the skim has found its end, and only then
(`Entry.identifiers_name`).
-/

namespace DotCompletion

open Skim (kindAt)

/-- A variable finds a token that is no name where the grammar has left off its type in front of
what the skim has passed: because something in the type is broken, or because the type is the word
`var` and goes on. -/
def Node.LeavesOffType (n : Node) : Prop :=
  n.kind = .parameter ∧ ∃ front type t, n.children = front ++ [type, .leaf .identifier t] ∧
    Frame.Named (front ++ [type]) ∧ type.kind = .typeUse ∧
      (¬type.Unbroken ∨ type.IsVar ∧ t.kind ∈ [TokenKind.dot, .less])

/-- The skim has found a type and a name behind it. -/
theorem Ahead.exists_rest {tokens : List Token}
    (h : Ahead.holds tokens .enhancedFor = true ∨ Ahead.holds tokens .typePattern = true) :
    ∃ withBrackets rest, Skim.type? withBrackets
        (Skim.modifiers Skim.anyModifier .between tokens) = some rest ∧
      (kindAt rest 0).isIdentifier = true := by
  simp only [Ahead.holds] at h
  rcases h with h | h
  all_goals
    split at h
    next rest hskim => exact ⟨_, rest, hskim, (Bool.and_eq_true_iff.mp h).1⟩
    next => cases h

/-- A variable that is taken without looking is a name unless its type was left off. -/
theorem Node.fitsNames_leavesOffType (source : Bytes) :
    FitsNames source fun n => Frame.Named n.children ∨ n.LeavesOffType where
  named := fun _ => .inl
  bound := by
    intro edge start frame middle nodes c between c' p hrests hmodifiers htype hbound hnamed
    obtain ⟨withBrackets, rest, hskim, hname⟩ := Ahead.exists_rest hbound
    have hsolid := hrests.cursor.solid
    rw [← hmodifiers.modifiers_rest hsolid] at hskim
    obtain ⟨type, rfl, hkind, hends⟩ :=
      htype.type_rest (hmodifiers.onward.solid hsolid) hskim hname
    have hnext : ∀ k, kindAt c'.rest 0 = k → k ≠ .eof → c'.next.kind = k := by
      rintro k rfl hk
      refine (Cursor.kindAt_rest fun hnil => hk ?_).symm
      rw [hnil]
      rfl
    rcases hends with hrest | hleft
    · -- the type ends where the skim has found the name
      left
      have hidentifier : c'.next.kind.isIdentifier = true := by
        rw [hnext _ (congrArg (kindAt · 0) hrest) (by rintro heof; rw [heof] at hname; cases hname)]
        exact hname
      intro n hn
      rcases List.mem_append.mp hn with hn | hn
      · exact hnamed n hn
      · rw [List.mem_singleton.mp hn]
        exact fun _ => ⟨c'.next, rfl, hidentifier⟩
    · refine .inr ⟨rfl, middle, type, c'.next, List.append_assoc _ _ _, hnamed, hkind, ?_⟩
      refine hleft.imp_right (And.imp_right fun hmem => ?_)
      rwa [hnext _ rfl (by rintro heof; rw [heof] at hmem; exact absurd hmem (by decide))]

namespace Entry

/-- In every tree the names are made of tokens that can be names, but for the variable of a loop or
of a `case` whose type was left off. -/
theorem identifiers_name (entry : Entry) (source : Bytes) :
    Frame.Named [entry.parse source] ∧ Frame.Named (entry.parse source).children ∧
      (entry.parse source).Every fun n => ∀ m ∈ n.children,
        Frame.Named m.children ∨ n.kind.takesVariable = true ∧ m.LeavesOffType := by
  have hroot := entry.parse_allNamed (Node.fitsNames_leavesOffType source)
  have hall := hroot.every _ (List.mem_singleton_self _)
  refine ⟨hroot.named, hroot.below rfl _ (List.mem_singleton_self _), hall.imp ?_⟩
  intro n hn m hm
  rcases hn.own.2 with htakes | hbelow
  · exact (hn.child hm).own.1.imp_right fun hleft => ⟨htakes, hleft⟩
  · exact .inl (hbelow m hm)

/-- A loop over a collection whose variable is a dot. -/
theorem names_dot :
    ¬(Entry.statements.parse (Bytes.ofString "for (var.x y : z) f();")).Every fun n =>
      n.kind = .identifier → ∃ t, n.token = some t ∧ t.kind.isIdentifier = true := by
  have hcheck : ¬(Entry.statements.parse (Bytes.ofString "for (var.x y : z) f();")).all
      (fun n => decide (n.kind = .identifier → n.token.any (·.kind.isIdentifier) = true)) =
        true := by
    decide +kernel
  rw [Node.all_eq_true] at hcheck
  simpa only [decide_eq_true_eq, Option.any_eq_true] using hcheck

end Entry

end DotCompletion
