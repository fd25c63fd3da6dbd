import DotCompletion.Proofs.Grammar.ClosingAngles
import DotCompletion.Proofs.WrittenType.Basic

/-!
# Looking over a type

Whether a statement declares a variable is decided by walking over the type without making
nodes. The walk counts the angle brackets that are open. It takes a sign of several closing
brackets in one step, and comes to the same place as over the brackets one by one
(`TypePlace.walk?_fuses`), so that it finds its way over a type however its brackets are fused.
-/

namespace DotCompletion

open Lexeme (sign Fuses)

namespace Skim

/-- Where the walk over a row of kinds arrives, if it goes on at each of them. -/
def TypePlace.walk? : TypePlace → List TokenKind → Option TypePlace
  | place, [] => some place
  | place, kind :: kinds =>
    match place.step kind with
    | .go place => place.walk? kinds
    | .stop | .fail => none

namespace TypePlace

variable {place place' : TypePlace} {kind : TokenKind} {kinds kinds' : List TokenKind}
  {depth : Nat}

theorem walk?_cons (h : place.step kind = .go place') :
    place.walk? (kind :: kinds) = place'.walk? kinds := by
  rw [walk?, h]

theorem exists_step_of_walk? (h : place.walk? (kind :: kinds) = some place') :
    ∃ next, place.step kind = .go next ∧ next.walk? kinds = some place' := by
  rw [walk?] at h
  cases hstep : place.step kind with
  | go next =>
      rw [hstep] at h
      exact ⟨next, rfl, h⟩
  | stop => simp [hstep] at h
  | fail => simp [hstep] at h

theorem walk?_append (place : TypePlace) (kinds kinds' : List TokenKind) :
    place.walk? (kinds ++ kinds') = (place.walk? kinds).bind (·.walk? kinds') := by
  induction kinds generalizing place with
  | nil => rfl
  | cons kind kinds ih =>
      rw [List.cons_append, walk?, walk?]
      cases place.step kind with
      | go place => exact ih place
      | stop => rfl
      | fail => rfl

theorem walk?_trans {place'' : TypePlace} (h : place.walk? kinds = some place')
    (h' : place'.walk? kinds' = some place'') : place.walk? (kinds ++ kinds') = some place'' := by
  rw [walk?_append, h]
  exact h'

theorem typeName?_of_walk? {tokens rest : List Token}
    (h : place.walk? (tokens.map Token.kind) = some place') :
    typeName? place (tokens ++ rest) = typeName? place' rest := by
  induction tokens generalizing place with
  | nil =>
      cases h
      rfl
  | cons t tokens ih =>
      obtain ⟨next, hstep, hnext⟩ := exists_step_of_walk? h
      rw [List.cons_append, typeName?, hstep]
      exact ih hnext

/-! ### Closing brackets -/

/-- A closing bracket is taken in type arguments only. -/
theorem step_greater_eq_go (h : place.step .greater = .go place') :
    (place = arguments 0 ∧ place' = behindArguments) ∨
      ∃ depth, place = arguments (depth + 1) ∧ place' = arguments depth := by
  cases place with
  | arguments depth =>
      cases depth with
      | zero =>
          cases h
          exact .inl ⟨rfl, rfl⟩
      | succ depth =>
          cases h
          exact .inr ⟨depth, rfl, rfl⟩
  | part | behindPart | behindArguments | bracket | behindBracket => cases h

/-- Two brackets in one sign are taken like one after the other. -/
theorem step_shiftRight {next : TypePlace} (h : place.step .greater = .go next)
    (h' : next.step .greater = .go place') : place.step .shiftRight = .go place' := by
  obtain ⟨rfl, rfl⟩ | ⟨depth, rfl, rfl⟩ := step_greater_eq_go h
  · cases h'
  · obtain ⟨hdepth, rfl⟩ | ⟨depth', hdepth, rfl⟩ := step_greater_eq_go h' <;> cases hdepth <;> rfl

theorem step_shiftRightZero {next : TypePlace} (h : place.step .greater = .go next)
    (h' : next.step .shiftRight = .go place') : place.step .shiftRightZero = .go place' := by
  obtain ⟨rfl, rfl⟩ | ⟨depth, rfl, rfl⟩ := step_greater_eq_go h
  · cases h'
  · match depth with
    | 0 => cases h'
    | 1 | depth + 2 => cases h'; rfl

/-- Fused brackets do not lead the walk elsewhere. -/
theorem walk?_fuses {row plain : List Lexeme} (hrow : Fuses row plain)
    (h : place.walk? (plain.map Lexeme.kind) = some place') :
    place.walk? (row.map Lexeme.kind) = some place' := by
  induction row generalizing plain place with
  | nil => rwa [← hrow] at h
  | cons l row ih =>
      rw [Fuses, List.flatMap_cons] at hrow
      subst hrow
      rw [List.map_append] at h
      obtain ⟨rfl, hl⟩ | ⟨rfl, hl⟩ | hl := Lexeme.apart_cases l
      · rw [hl] at h
        obtain ⟨next, hfirst, hnext⟩ := exists_step_of_walk? h
        obtain ⟨last, hsecond, hlast⟩ := exists_step_of_walk? hnext
        exact (walk?_cons (step_shiftRight hfirst hsecond)).trans (ih rfl hlast)
      · rw [hl] at h
        obtain ⟨next, hfirst, hnext⟩ := exists_step_of_walk? h
        obtain ⟨middle, hsecond, hmiddle⟩ := exists_step_of_walk? hnext
        obtain ⟨last, hthird, hlast⟩ := exists_step_of_walk? hmiddle
        have hzero := step_shiftRightZero hfirst (step_shiftRight hsecond hthird)
        exact (walk?_cons hzero).trans (ih rfl hlast)
      · rw [hl] at h
        obtain ⟨next, hfirst, hnext⟩ := exists_step_of_walk? h
        exact (walk?_cons hfirst).trans (ih rfl hnext)

/-! ### In type arguments -/

/-- What may stand in type arguments besides angle brackets. -/
theorem step_inside (h : kind ∈ TokenKind.identifiers ++ TokenKind.primitives ++ argumentSigns)
    (depth : Nat) : (arguments depth).step kind = .go (arguments depth) := by
  have hkinds : ∀ k ∈ TokenKind.identifiers ++ TokenKind.primitives ++ argumentSigns,
      k ≠ .less ∧ closing k = 0 ∧
        (k.isIdentifier || k.isPrimitive || argumentSigns.contains k) = true := by decide
  obtain ⟨hless, hclosing, hinside⟩ := hkinds kind h
  simp only [step, hless, hclosing, hinside, if_false, if_true, ne_eq, not_true_eq_false]

/-- In type arguments the walk over the row comes back to where it began. -/
def Stays (row : List Lexeme) : Prop :=
  ∀ depth, (arguments depth).walk? (row.map Lexeme.kind) = some (arguments depth)

namespace Stays

variable {row row' : List Lexeme} {l : Lexeme}

theorem nil : Stays [] := fun _ => rfl

theorem append (h : Stays row) (h' : Stays row') : Stays (row ++ row') := fun depth => by
  rw [List.map_append]
  exact walk?_trans (h depth) (h' depth)

theorem cons (hl : l.kind ∈ TokenKind.identifiers ++ TokenKind.primitives ++ argumentSigns)
    (h : Stays row) : Stays (l :: row) :=
  fun depth => (walk?_cons (step_inside hl depth)).trans (h depth)

theorem name (x : Expr.Name) (h : Stays row) : Stays (⟨.identifier, x⟩ :: row) :=
  h.cons (show TokenKind.identifier ∈ _ by decide)

/-- Angle brackets around a row. -/
theorem angles (h : Stays row) : Stays (sign .less :: (row ++ [sign .greater])) := fun depth => by
  rw [List.map_cons, List.map_append]
  exact (walk?_cons rfl).trans (walk?_trans (h (depth + 1)) rfl)

theorem dimensions (dims : Nat) : Stays (WrittenType.dimensions dims) := by
  induction dims with
  | zero => exact .nil
  | succ dims ih =>
      rw [WrittenType.dimensions, List.replicate_succ, List.flatten_cons]
      exact ((nil.cons (by decide)).cons (by decide)).append ih

end Stays

end TypePlace

end Skim

open Skim Skim.TypePlace

mutual

/-- Nested in type arguments, a type is passed whatever is in it. -/
theorem WrittenType.stays (t : WrittenType) : Stays t.lexemes := by
  match t with
  | .primitive k dims =>
      have hprimitive := WrittenType.mem_primitives.mp k.2
      exact .cons (List.mem_append_left _ (List.mem_append_right _ hprimitive)) (.dimensions dims)
  | .named n dims => exact n.stays.append (.dimensions dims)

theorem TypeName.stays (n : TypeName) : Stays n.lexemes := by
  match n with
  | .last x args => exact (TypeArgument.stays_listed args).name x
  | .dotted x args rest =>
      exact ((TypeArgument.stays_listed args).append (rest.stays.cons (by decide))).name x

theorem TypeArgument.stays (a : TypeArgument) : Stays a.lexemes := by
  match a with
  | .exact t => exact t.stays
  | .any => exact .cons (by decide) .nil
  | .bounded word t =>
      have hwords : ∀ k ∈ TypeArgument.bounds,
          k ∈ TokenKind.identifiers ++ TokenKind.primitives ++ argumentSigns := by decide
      exact .cons (by decide) (.cons (hwords word.1 word.2) t.stays)

theorem TypeArgument.stays_listed (args : List TypeArgument) :
    Stays (TypeArgument.listed args) := by
  match args with
  | [] => exact .nil
  | a :: rest =>
      rw [TypeArgument.listed, ← List.append_assoc]
      exact (a.stays.append (TypeArgument.stays_more rest)).angles

theorem TypeArgument.stays_more (args : List TypeArgument) : Stays (TypeArgument.more args) := by
  match args with
  | [] => exact .nil
  | a :: rest => exact .cons (by decide) (a.stays.append (TypeArgument.stays_more rest))

end

/-! ## Outside of type arguments -/

namespace Skim.TypePlace

/-- Behind the name of a type, perhaps with arguments or brackets. -/
inductive IsEnd : TypePlace → Prop
  | part : IsEnd .behindPart
  | arguments : IsEnd .behindArguments
  | bracket : IsEnd .behindBracket

variable {place : TypePlace}

/-- The name ends in front of another one. -/
theorem IsEnd.step_identifier (h : place.IsEnd) : place.step .identifier = .stop := by
  cases h <;> rfl

theorem IsEnd.walk?_dimensions (h : place.IsEnd) (dims : Nat) :
    ∃ place', place'.IsEnd ∧
      place.walk? ((WrittenType.dimensions dims).map Lexeme.kind) = some place' := by
  induction dims generalizing place with
  | zero => exact ⟨place, h, rfl⟩
  | succ dims ih =>
      obtain ⟨place', hend, hwalk⟩ := ih .bracket
      refine ⟨place', hend, ?_⟩
      rw [WrittenType.dimensions, List.replicate_succ, List.flatten_cons, List.map_append]
      have hpair : place.walk? ([sign .lbracket, sign .rbracket].map Lexeme.kind) =
          some .behindBracket := by
        cases h <;> rfl
      exact walk?_trans hpair hwalk

end Skim.TypePlace

/-- Arguments behind a part of a name. -/
theorem TypeArgument.walk?_listed (args : List TypeArgument) :
    behindPart.walk? ((TypeArgument.listed args).map Lexeme.kind) = some behindPart ∨
      behindPart.walk? ((TypeArgument.listed args).map Lexeme.kind) = some behindArguments := by
  cases args with
  | nil => exact .inl rfl
  | cons a rest =>
      have hinside := (a.stays.append (TypeArgument.stays_more rest)) 0
      rw [TypeArgument.listed, ← List.append_assoc, List.map_cons, List.map_append]
      exact .inr ((walk?_cons rfl).trans (walk?_trans hinside rfl))

/-- The walk over a name comes to its end. -/
theorem TypeName.walk?_part (n : TypeName) :
    ∃ place, place.IsEnd ∧ part.walk? (n.lexemes.map Lexeme.kind) = some place := by
  match n with
  | .last x args =>
      rw [TypeName.lexemes, List.map_cons, walk?_cons rfl]
      rcases TypeArgument.walk?_listed args with h | h
      · exact ⟨_, .part, h⟩
      · exact ⟨_, .arguments, h⟩
  | .dotted x args rest =>
      obtain ⟨place, hend, hrest⟩ := rest.walk?_part
      refine ⟨place, hend, ?_⟩
      rw [TypeName.lexemes, List.map_cons, List.map_append, walk?_cons rfl, List.map_cons]
      rcases TypeArgument.walk?_listed args with h | h
      · exact walk?_trans h ((walk?_cons rfl).trans hrest)
      · exact walk?_trans h ((walk?_cons rfl).trans hrest)

/-! ## Declarations -/

namespace Skim

variable {tokens behind : List Token}

theorem brackets_dimensions {dims : Nat}
    (h : tokens.map Token.lexeme = WrittenType.dimensions dims)
    (hbehind : kindAt behind 0 ≠ .lbracket) : brackets (tokens ++ behind) = behind := by
  induction dims generalizing tokens with
  | zero =>
      obtain rfl := List.map_eq_nil_iff.mp h
      rw [List.nil_append]
      match behind, hbehind with
      | [], _ | [_], _ => rfl
      | t :: u :: rest, hbehind =>
          rw [brackets, if_neg fun hpair => hbehind hpair.1]
  | succ dims ih =>
      rw [WrittenType.dimensions, List.replicate_succ, List.flatten_cons] at h
      obtain ⟨t, rest, rfl, ht, hrest⟩ := List.map_eq_cons_iff.mp h
      obtain ⟨u, rest, rfl, hu, hrest⟩ := List.map_eq_cons_iff.mp hrest
      have hpair : t.kind = .lbracket ∧ u.kind = .rbracket :=
        ⟨congrArg Lexeme.kind ht, congrArg Lexeme.kind hu⟩
      rw [List.cons_append, List.cons_append, brackets, if_pos hpair]
      exact ih hrest

theorem modifiers_idle {starts : Token → List Token → Option ModifierPlace}
    (h : ∀ t rest, tokens = t :: rest → starts t rest = none) :
    modifiers starts .between tokens = tokens := by
  cases tokens with
  | nil => rfl
  | cons t rest => rw [modifiers, ModifierPlace.next?, h t rest rfl]

end Skim

namespace WrittenType

variable {tokens : List Token} {plain : List Lexeme} {x : Bytes}

theorem mem_dimensions {dims : Nat} {l : Lexeme} (h : l ∈ dimensions dims) :
    l = sign .lbracket ∨ l = sign .rbracket := by
  obtain ⟨pair, hpair, hl⟩ := List.mem_flatten.mp h
  rw [List.eq_of_mem_replicate hpair] at hl
  simpa using hl

/-- A row that stands for a type begins with a token that begins one. -/
theorem exists_token (t : WrittenType) (h : Fuses (tokens.map Token.lexeme) (t.lexemes ++ plain)) :
    ∃ u rest, tokens = u :: rest ∧ u.kind ∈ starts := by
  have hstarts : ∀ k ∈ starts, k ≠ .greater := by decide
  obtain ⟨l, row, hrow, hl⟩ := t.exists_first
  rw [hrow] at h
  obtain ⟨row', hcons, -⟩ := h.exists_cons fun heq => hstarts _ hl (congrArg Lexeme.kind heq)
  obtain ⟨u, rest, rfl, hu, -⟩ := List.map_eq_cons_iff.mp hcons
  rw [← hu] at hl
  exact ⟨u, rest, rfl, hl⟩

/-- A type ends where a name stands behind it. -/
theorem type?_eq (t : WrittenType)
    (h : Fuses (tokens.map Token.lexeme) (t.lexemes ++ ⟨.identifier, x⟩ :: plain)) :
    ∃ u rest, u.kind = .identifier ∧ type? true tokens = some (u :: rest) := by
  obtain ⟨front, back, hrow, hfront, hback⟩ := h.exists_append (by rintro _ ⟨⟩; nofun)
  obtain ⟨rest, rfl, -⟩ := hback.exists_cons nofun
  obtain ⟨front, behind, rfl, rfl, hbehind⟩ := List.map_eq_append_iff.mp hrow
  obtain ⟨u, rest, rfl, hu, -⟩ := List.map_eq_cons_iff.mp hbehind
  have hkind : u.kind = .identifier := congrArg Lexeme.kind hu
  refine ⟨u, rest, hkind, ?_⟩
  cases t with
  | primitive k dims =>
      have hne : ∀ k ∈ WrittenType.primitives, k ≠ .greater := by decide
      have hplain : sign .greater ∉ sign k :: dimensions dims := by
        intro hmem
        rcases List.mem_cons.mp hmem with heq | hmem
        · exact hne k k.2 (congrArg Lexeme.kind heq).symm
        · rcases mem_dimensions hmem with heq | heq <;> cases heq
      obtain ⟨v, front, rfl, hv, hdims⟩ :=
        List.map_eq_cons_iff.mp (hfront.eq_of_not_mem hplain)
      have hprimitive : (kindAt (v :: front ++ u :: rest) 0).isPrimitive = true := by
        have hk : v.kind ∈ TokenKind.primitives := by
          rw [show v.kind = k from congrArg Lexeme.kind hv]
          exact mem_primitives.mp k.2
        exact List.contains_iff_mem.mpr hk
      have hbehind : kindAt (u :: rest) 0 ≠ .lbracket := by
        intro hbracket
        cases hkind.symm.trans hbracket
      rw [type?, if_pos hprimitive, if_pos rfl]
      exact congrArg some (brackets_dimensions hdims hbehind)
  | named n dims =>
      obtain ⟨place, hplace, hname⟩ := n.walk?_part
      obtain ⟨place', hend, hdims⟩ := hplace.walk?_dimensions dims
      have hwalk : part.walk? (front.map Token.kind) = some place' := by
        have hplain := walk?_trans hname hdims
        rw [← List.map_append] at hplain
        have hfused := walk?_fuses hfront hplain
        rwa [List.map_map] at hfused
      obtain ⟨y, row, hn⟩ := n.exists_first
      rw [lexemes, hn] at hfront
      obtain ⟨row', hcons, -⟩ := hfront.exists_cons nofun
      obtain ⟨v, front, rfl, hv, -⟩ := List.map_eq_cons_iff.mp hcons
      have hidentifier : kindAt (v :: front ++ u :: rest) 0 = .identifier :=
        congrArg Lexeme.kind hv
      rw [type?, hidentifier, if_neg (by decide), typeName?_of_walk? hwalk, typeName?, hkind,
        hend.step_identifier]

/-- A type and a name behind it declare a variable. -/
theorem declares (t : WrittenType) (frame : List Sketch) :
    (Look.ahead .localVariable).AnswersApart frame (t.lexemes ++ ⟨.identifier, x⟩ :: plain)
      true := by
  rintro row hrow nodes tokens - rfl
  have hmodifier : ∀ k ∈ starts, k ≠ .atSign ∧ k ≠ .kwFinal := by decide
  obtain ⟨u, rest, rfl, hu⟩ := t.exists_token hrow
  obtain ⟨v, behind, hv, htype⟩ := t.type?_eq hrow
  have hmodifiers : modifiers variableModifier .between (u :: rest) = u :: rest := by
    apply modifiers_idle
    rintro _ _ ⟨⟩
    rw [variableModifier, if_neg (hmodifier _ hu).1, if_neg (hmodifier _ hu).2]
  rw [Look.holds, Ahead.holds, hmodifiers, htype]
  exact show v.kind.isIdentifier = true by rw [hv]; rfl

end WrittenType

end DotCompletion
