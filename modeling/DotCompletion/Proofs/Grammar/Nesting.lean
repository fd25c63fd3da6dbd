import DotCompletion.Proofs.Grammar.Stances

/-!
# Spans nest

What the rules lead to is a table that each rule's form bears out. So every node of every tree nests
but for two kinds of exceptions (`Entry.spans_nest`): a reference whose missing name is put in front
of its empty type arguments, and the body of a class, a loop over a collection or a branch of a
switch that ends in front of the end of the source although one of its children reaches to it.
-/

namespace DotCompletion

/-! ## What the rules lead to -/

namespace Rule

/-- The hint that the rule makes use of. -/
def heeds : Rule → Option Hint
  | member | modifiers => some .notBrace
  | modifierRest => some .modifiers
  | typeDecl => some .declaration
  | _ => none

/-- The rule may leave its frame as it is. -/
def idles : Rule → Bool
  | unitItems | nameRest _ | modifiers | modifierRest | annotations | nested _ | header
  | typeParameterRest | enumConstants | members | dims | unionRest | list _ _ | skipTo _
  | statements _ | resources | catches | switchItems | operators _ | castRest | suffixes
  | arrayLengths => true
  | _ => false

/-- The rule may make a node that reaches to the end of the input. -/
def raises : Rule → Bool
  | unitItems | members | member | caseLabels | caseLabel => true
  | _ => false

/-- The tokens that lists are closed by. -/
def listClosers : List TokenKind := [.lbrace, .greater, .rparen, .rbrace]

/-- The rule can be followed from the stance, whose frame is aligned. -/
def accepts (s : Stance) : Rule → Bool
  -- no form refers to these
  | compilationUnit | statementBlock => false
  | member | typeDecl => s.supply ≠ .ended && s.hint ≠ none
  | suffixes => s.based
  | list close _ => listClosers.contains close
  | annotationUse | typeParameters | typeName | typeArguments _ | arrayInit | switch _ | switchCase
  | lambda | methodRef | creation => s.supply ≠ .ended
  | _ => true

/-- What the rule leads to from the stance. -/
def outcomes (r : Rule) (s : Stance) : List Stance :=
  match r with
  | modifiers =>
    s :: if s.supply = .ended then []
      else [⟨.one, none, true, .aligned⟩, ⟨.ended, none, true, .aligned⟩]
  | unitItems | statements [] =>
    if s.supply = .ended then [s]
    else [⟨.ended, none, true, if r.raises then .raised else .aligned⟩]
  | _ =>
    let based := s.based || !r.idles ||
      (r.heeds = some .modifiers && s.hint = r.heeds && s.supply ≠ .ended)
    ⟨.ended, none, based, if r.raises then .raised else .aligned⟩ ::
      if s.supply = .ended then [] else [⟨.one, none, based, .aligned⟩]

/-- What the rule leads to if nothing is known of what is behind modifiers or brackets. -/
def table (r : Rule) (s : Stance) : Option (List Stance) :=
  if r.accepts s then
    match s.level with
    | .aligned => some (r.outcomes s)
    | .raised | .sunk => if r.idles ∧ s.supply = .ended then some [s] else none
    | .marked | .torn => none
  else none

/-- What the rule makes use of. -/
def seen (r : Rule) (s : Stance) : Stance :=
  { s with
    supply := if s.supply = .two then .one else s.supply
    hint := if s.hint = r.heeds then s.hint else none }

/-- What the rule leads to. -/
def exits (r : Rule) (s : Stance) : Option (List Stance) :=
  match r, s.hint with
  | dims, some (.behindPairs supply) =>
    if s.level = .aligned then some [⟨supply, none, s.based, .aligned⟩] else none
  | modifiers, some .behindModifiers =>
    if s.level = .aligned then some [⟨.one, some .declaration, s.based, .aligned⟩] else none
  | _, _ => r.table (r.seen s)

/-- The stances that rules are followed from. -/
def stances (r : Rule) : List Stance :=
  [.ended, .one].flatMap fun supply => (none :: r.heeds.toList.map some).flatMap fun hint =>
    [true, false].flatMap fun based => [.aligned, .marked, .torn, .raised, .sunk].map fun level =>
      ⟨supply, hint, based, level⟩

/-- The rule's form leads to what the table says. -/
def checks (r : Rule) (s : Stance) : Bool :=
  match r.table s, r.form.flow exits s with
  | none, _ => true
  | some _, none => false
  | some outs, some ins => ins.all fun t => outs.any t.implies

theorem checks_list (close : TokenKind) (item : ListItem) :
    (list close item).stances.all (list close item).checks = true := by
  by_cases h : close ∈ listClosers
  · simp only [listClosers, List.mem_cons, List.not_mem_nil, or_false] at h
    rcases h with rfl | rfl | rfl | rfl <;> cases item <;> decide +kernel
  · have hrefused : ∀ s, (list close item).table s = none := fun s =>
      if_neg (by simpa [accepts] using h)
    exact List.all_eq_true.mpr fun s _ => by rw [checks, hrefused]

/-- The forms bear the table out. Most parameters of rules make no difference to it. -/
theorem checks_stances (r : Rule) : r.stances.all r.checks = true := by
  cases r with
  | operators least =>
      match least with
      | 0 | 1 | 2 | 3 | 4 | 5 | 6 | 7 | 8 | 9 | 10 => decide +kernel
      | least + 11 =>
          change (operators 11).stances.all (operators 11).checks = true
          decide +kernel
  | nested depth =>
      cases depth with
      | zero => decide +kernel
      | succ depth =>
          change (nested 1).stances.all (nested 1).checks = true
          decide +kernel
  | skipTo kinds =>
      cases kinds with
      | nil => decide +kernel
      | cons kind kinds =>
          change (skipTo [kind]).stances.all (skipTo [kind]).checks = true
          rfl
  | statements kinds =>
      cases kinds with
      | nil => decide +kernel
      | cons kind kinds =>
          change (statements [kind]).stances.all (statements [kind]).checks = true
          rfl
  | typeArguments kind =>
      change (typeArguments .typeArguments).stances.all (typeArguments .typeArguments).checks = true
      decide +kernel
  | switch kind =>
      change (switch .switchStmt).stances.all (switch .switchStmt).checks = true
      decide +kernel
  | binary least =>
      change (binary 0).stances.all (binary 0).checks = true
      decide +kernel
  | qualifiedName b | nameRest b | classBody b | localVarDecl b => cases b <;> decide +kernel
  | list close item => exact checks_list close item
  | _ => decide +kernel

end Rule

/-! ## Every node -/

namespace Rule

variable {source : Bytes} {r : Rule} {frame frame' : Frame} {c c' : Cursor} {s : Stance}
  {outs : List Stance} {edge start : Nat}

theorem seen_mem_stances (r : Rule) (s : Stance) : r.seen s ∈ r.stances := by
  obtain ⟨supply, hint, based, level⟩ := s
  simp only [stances, List.mem_flatMap, List.mem_map]
  refine ⟨if supply = .two then .one else supply, by cases supply <;> decide,
    if hint = r.heeds then hint else none, ?_, based, by cases based <;> decide,
    level, by cases level <;> decide, rfl⟩
  split
  next hheeds =>
      rw [hheeds]
      cases r.heeds <;> simp
  next => exact List.mem_cons_self

theorem holds_seen (h : s.Holds frame c) (r : Rule) : (r.seen s).Holds frame c := by
  obtain ⟨supply, hint, based, level⟩ := s
  refine h.imp ?_
  simp only [Stance.implies, seen, Bool.and_eq_true, Bool.or_eq_true, decide_eq_true_eq]
  refine ⟨⟨⟨?_, ?_⟩, by cases based <;> simp⟩, .inl trivial⟩
  · cases supply <;> simp
  · split
    next => exact .inr rfl
    next => exact .inl rfl

/-- A rule whose form is read that way leads to what the table says. -/
theorem reached_of_table (h : r.form.Does (Upholds source exits) frame c frame' c')
    (htable : r.table (r.seen s) = some outs) (hrests : frame.Rests source edge start c)
    (hs : s.Holds frame c) (hall : Node.EveryIn (Node.Accounted source) frame) :
    Stance.Reached source outs frame' c' := by
  have hcheck := List.all_eq_true.mp r.checks_stances _ (r.seen_mem_stances s)
  rw [checks, htable] at hcheck
  cases hflow : r.form.flow exits (r.seen s) with
  | none =>
      rw [hflow] at hcheck
      cases hcheck
  | some ins =>
      rw [hflow] at hcheck
      obtain ⟨⟨t, ht, hholds⟩, hall'⟩ := h.reaches hflow hrests (holds_seen hs r) hall
      obtain ⟨u, hu, himplies⟩ := List.any_eq_true.mp (List.all_eq_true.mp hcheck t ht)
      exact ⟨⟨u, hu, hholds.imp himplies⟩, hall'⟩

/-- Pairs of brackets, or modifiers, are read to where a skim over them ends. -/
theorem reached_of_skim {supply : Supply} {hint : Option Hint}
    (h : r.form.Does (Upholds source exits) frame c frame' c') (hr : r = dims ∨ r = modifiers)
    (hhint : s.hint ≠ r.heeds) (hlevel : s.level = .aligned)
    (hrests : frame.Rests source edge start c) (hs : s.Holds frame c)
    (hall : Node.EveryIn (Node.Accounted source) frame) (hsupply : supply.Holds c'.rest)
    (hbehind : ∀ hint' ∈ hint, hint'.Holds c'.rest) :
    Stance.Reached source [⟨supply, hint, s.based, .aligned⟩] frame' c' := by
  have hknown : ∃ outs, r.table (r.seen s) = some outs ∧
      ∀ t ∈ outs, (s.based = true → t.based = true) ∧ t.level = .aligned := by
    obtain ⟨tokens, hint, based, level⟩ := s
    cases hlevel
    have hseen : r.seen ⟨tokens, hint, based, .aligned⟩ =
        ⟨if tokens = .two then .one else tokens, none, based, .aligned⟩ := by
      rw [seen, if_neg hhint]
    rw [hseen]
    rcases hr with rfl | rfl <;> refine ⟨_, rfl, ?_⟩ <;> cases tokens <;>
      simp [outcomes, idles, heeds, raises]
  obtain ⟨outs, htable, hsame⟩ := hknown
  obtain ⟨⟨t, ht, hholds⟩, hall'⟩ := reached_of_table h htable hrests hs hall
  obtain ⟨hbased, hlevel'⟩ := hsame t ht
  refine ⟨⟨_, List.mem_singleton_self _, hsupply, hbehind, ?_, ?_⟩, hall'⟩
  · exact fun hs => hholds.based (hbased hs)
  · rw [← hlevel']
    exact hholds.level

theorem Reads.upholds (h : r.Reads frame c frame' c') :
    Upholds source exits r frame c frame' c' := by
  refine h.induct (Upholds source exits) ?_
  intro r frame c frame' c' hform
  have hreads : r.Reads frame c frame' c' := .intro (hform.mono fun _ _ _ _ _ => And.left)
  refine ⟨hreads, ?_⟩
  intro s outs edge start hexits hrests hs hall
  unfold exits at hexits
  split at hexits
  next supply hhint =>
      split at hexits
      next hlevel =>
          cases hexits
          have hsupply := hs.hint _ hhint
          rw [Hint.Holds, ← hreads.dims_rest] at hsupply
          exact reached_of_skim hform (.inl rfl) (by rw [hhint]; exact Option.some_ne_none _) hlevel
            hrests hs hall hsupply fun _ hhint => absurd hhint (Option.not_mem_none _)
      next => cases hexits
  next hhint =>
      split at hexits
      next hlevel =>
          cases hexits
          have hdeclares := hs.hint _ hhint
          rw [Hint.Holds, ← hreads.modifiers_rest hrests.cursor.solid] at hdeclares
          refine reached_of_skim hform (.inr rfl) (by rw [hhint]; decide) hlevel hrests hs hall ?_
            (by rintro _ ⟨⟩; exact hdeclares)
          intro hnil
          rw [hnil] at hdeclares
          exact absurd hdeclares (by decide)
      next => cases hexits
  next => exact reached_of_table hform hexits hrests hs hall

end Rule

namespace Entry

/-- What is known in the beginning leads somewhere. -/
theorem exists_flow (entry : Entry) (source : Bytes) :
    ∃ s outs, s.Holds [] (Cursor.ofSource source) ∧
      entry.rule.form.flow Rule.exits s = some outs := by
  have hflow : ∀ supply ∈ [Supply.ended, .one],
      (entry.rule.form.flow Rule.exits ⟨supply, none, false, .aligned⟩).isSome = true := by
    cases entry <;> decide +kernel
  obtain ⟨supply, hmem, hsupply⟩ : ∃ supply ∈ [Supply.ended, .one],
      supply.Holds (Cursor.ofSource source).rest := by
    by_cases hrest : (Cursor.ofSource source).rest = []
    · exact ⟨.ended, by decide, hrest⟩
    · exact ⟨.one, by decide, hrest⟩
  obtain ⟨outs, houts⟩ := Option.isSome_iff_exists.mp (hflow supply hmem)
  exact ⟨⟨supply, none, false, .aligned⟩, outs, ⟨hsupply, nofun, nofun, Frame.Aligned.nil _⟩,
    houts⟩

/-- A node covers its children, which begin one behind the other, unless it is a reference whose
missing name stands in front of its empty type arguments, or the body of a class, a loop over a
collection or a branch of a switch that ends in front of the end of the source although a child
reaches to it. -/
theorem spans_nest (entry : Entry) (source : Bytes) :
    (entry.parse source).Every fun n => n.Nests ↔ ¬n.IsTorn ∧ ¬n.EndsEarly source := by
  obtain ⟨frame, c, hread⟩ := entry.read?_isSome source
  obtain ⟨node, rfl⟩ := Entry.read?_eq_singleton hread
  obtain ⟨s, outs, hs, hflow⟩ := entry.exists_flow source
  have hreads : entry.rule.form.Does Rule.Reads [] (Cursor.ofSource source) [node] c :=
    Rule.Reads.elim ⟨_, hread⟩
  have hform : entry.rule.form.Does (Upholds source Rule.exits) [] (Cursor.ofSource source)
      [node] c :=
    hreads.mono fun _ _ _ _ _ => Rule.Reads.upholds
  obtain ⟨_, hall⟩ := hform.reaches hflow (.nil (Cursor.placed_ofSource source)) hs .nil
  simp only [Entry.parse, hread]
  exact (hall node List.mem_cons_self).imp fun m hm => hm.own.nests_iff

/-- The empty type arguments of the reference are put in front of the semicolon, and the missing
name behind them right behind the dot, where the reference ends. -/
theorem torn_reference :
    ¬(Entry.statements.parse (Bytes.ofString "a. ;")).Every Node.Nests := by
  have hcheck : (Entry.statements.parse (Bytes.ofString "a. ;")).all (fun n => decide n.Nests) =
      false := by
    decide +kernel
  intro h
  have hall := Node.all_eq_true.mpr (h.imp fun m hm => decide_eq_true hm.own)
  rw [hcheck] at hall
  cases hall

end Entry

end DotCompletion
