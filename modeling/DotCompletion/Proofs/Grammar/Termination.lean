import DotCompletion.Proofs.Grammar.Progress

/-!
# Every rule ends

A survey goes over a form without running it. It follows what is known of the
next token while none has been taken, and accepts a reference to a rule only if
that rule has a lower rank or a token was taken before. Each form passes the
survey at the rank of its rule, so the nesting of rules in a run is bounded by
the bytes ahead.
-/

namespace DotCompletion

open Cursor (Onward splittable)

/-! ## What a look tells about the next token -/

namespace Look

/-- The kinds that the next token can have if the condition is met. -/
def kinds : Look → Option (List TokenKind)
  | next kinds => some kinds
  | annotationStart => some [.atSign]
  | both a b => a.kinds <|> b.kinds
  | either a b =>
    match a.kinds, b.kinds with
    | some ks, some ls => some (ks ++ ls)
    | _, _ => none
  | _ => none

/-- What is left of `known` if the condition is not met. -/
def refute (known : Option (List TokenKind)) : Look → Option (List TokenKind)
  | next kinds => known.map fun ks => ks.filter fun k => !kinds.contains k
  | _ => known

/-- The answer in front of a token of which `known` is known, if that settles
it. -/
def settled (known : Option (List TokenKind)) : Look → Option Bool
  | next [kind] => if kind = .eof then some false else settledBy known [kind]
  | next kinds => settledBy known kinds
  | _ => none
where
  settledBy (known : Option (List TokenKind)) (kinds : List TokenKind) : Option Bool :=
    match known with
    | none => none
    | some ks =>
      if ks.all kinds.contains then some true
      else if ks.all fun k => !kinds.contains k then some false
      else none

end Look

/-- The next token has one of the kinds, if any are given. -/
def Cursor.Among (c : Cursor) : Option (List TokenKind) → Prop
  | some kinds => c.next.kind ∈ kinds
  | none => True

theorem Cursor.kindAt_rest {c : Cursor} (hrest : c.rest ≠ []) :
    Skim.kindAt c.rest 0 = c.next.kind := by
  cases hc : c.rest with
  | nil => exact absurd hc hrest
  | cons t rest => simp [Skim.kindAt, Cursor.next, hc]

namespace Look

theorem kindAt_mem {look : Look} {nodes : List Node} {tokens : List Token}
    (hlook : look.holds nodes tokens = true) :
    ∀ ks ∈ look.kinds, Skim.kindAt tokens 0 ∈ ks := by
  induction look with
  | next ks =>
      rintro _ ⟨⟩
      simpa [holds] using hlook
  | annotationStart =>
      rintro _ ⟨⟩
      simp only [holds, Skim.isAnnotationStart, Bool.and_eq_true, beq_iff_eq] at hlook
      exact List.mem_singleton.mpr hlook.1
  | both a b iha ihb =>
      simp only [holds, Bool.and_eq_true] at hlook
      intro ks hks
      simp only [kinds] at hks
      cases ha : a.kinds with
      | some ls =>
          rw [ha] at hks
          cases hks
          exact iha hlook.1 _ ha
      | none =>
          rw [ha] at hks
          exact ihb hlook.2 ks hks
  | either a b iha ihb =>
      simp only [holds, Bool.or_eq_true] at hlook
      intro ks hks
      simp only [kinds] at hks
      split at hks
      next ls ms ha hb =>
          cases hks
          exact List.mem_append.mpr
            (hlook.imp (fun h => iha h ls ha) (fun h => ihb h ms hb))
      next => cases hks
  | second | spelled | modifier | typeDecl | operand | ahead | isNot => rintro _ ⟨⟩

theorem among_kinds {look : Look} {frame : Frame} {c : Cursor} (hrest : c.rest ≠ [])
    (hlook : look.holds frame c.rest = true) : c.Among look.kinds := by
  cases hkinds : look.kinds with
  | none => trivial
  | some ks =>
      rw [Cursor.Among, ← Cursor.kindAt_rest hrest]
      exact kindAt_mem hlook ks hkinds

theorem among_kinds_or {look : Look} {known : Option (List TokenKind)} {frame : Frame}
    {c : Cursor} (hrest : c.rest ≠ []) (hknown : c.Among known)
    (hlook : look.holds frame c.rest = true) : c.Among (look.kinds <|> known) := by
  have hkinds := among_kinds hrest hlook
  cases hk : look.kinds with
  | some ks =>
      rw [hk] at hkinds
      exact hkinds
  | none => exact hknown

theorem among_refute {look : Look} {known : Option (List TokenKind)} {frame : Frame}
    {c : Cursor} (hrest : c.rest ≠ []) (hknown : c.Among known)
    (hlook : look.holds frame c.rest = false) : c.Among (look.refute known) := by
  cases look with
  | next kinds =>
      cases known with
      | none => trivial
      | some ks =>
          simp only [holds, Cursor.kindAt_rest hrest] at hlook
          exact List.mem_filter.mpr ⟨hknown, by rw [hlook]; rfl⟩
  | _ => exact hknown

theorem holds_of_settledBy {known : Option (List TokenKind)} {ks : List TokenKind}
    {frame : Frame} {c : Cursor} {answer : Bool} (hrest : c.rest ≠ []) (hknown : c.Among known)
    (h : settled.settledBy known ks = some answer) :
    (next ks).holds frame c.rest = answer := by
  unfold settled.settledBy at h
  split at h
  next => cases h
  next known =>
      simp only [holds, Cursor.kindAt_rest hrest]
      split at h
      next hall =>
          cases h
          exact List.all_eq_true.mp hall _ hknown
      next =>
          split at h
          next hall =>
              cases h
              simpa using List.all_eq_true.mp hall _ hknown
          next => cases h

/-- In front of a token the settled answer is the right one. -/
theorem holds_of_settled {look : Look} {known : Option (List TokenKind)} {frame : Frame}
    {c : Cursor} {answer : Bool} (hrest : c.rest ≠ []) (heof : c.next.kind ≠ .eof)
    (hknown : c.Among known) (h : look.settled known = some answer) :
    look.holds frame c.rest = answer := by
  unfold settled at h
  split at h
  next kind =>
      split at h
      next hkind =>
          cases h
          subst hkind
          simpa [holds, Cursor.kindAt_rest hrest] using heof
      next => exact holds_of_settledBy hrest hknown h
  next => exact holds_of_settledBy hrest hknown h
  next => cases h

/-- The condition does not ask about the nodes made so far. -/
def frameless : Look → Bool
  | operand _ => false
  | both a b | either a b => a.frameless && b.frameless
  | isNot a => a.frameless
  | _ => true

theorem holds_of_frameless {look : Look} (h : look.frameless = true) (nodes : List Node)
    (tokens : List Token) : look.holds nodes tokens = look.holds [] tokens := by
  induction look with
  | operand => cases h
  | both a b iha ihb | either a b iha ihb =>
      simp only [frameless, Bool.and_eq_true] at h
      simp only [holds, iha h.1, ihb h.2]
  | isNot a ih => simp only [holds, ih h]
  | next | second | spelled | modifier | annotationStart | typeDecl | ahead => rfl

end Look

/-! ## Ranks of rules -/

namespace Rule

/-- A rule takes a token if the next one is of these kinds. -/
def starters : Rule → List TokenKind
  | annotations => [.atSign]
  | typeUse => TokenKind.identifiers ++ TokenKind.primitives ++ [.kwVoid, .atSign]
  | arguments => [.lparen]
  | block => [.lbrace]
  | _ => []

/-- A rule that takes a token wherever there is one. -/
def takesAny : Rule → Bool
  | annotationUse | typeName | methodRef => true
  | _ => false

/-- A rule refers only to rules of lower rank before it takes a token. -/
def rank : Rule → Nat
  | statementBlock | block | methodRest => 11
  | statements _ | switchItems | arguments | parameters => 10
  | statement | list _ _ => 9
  | exprStmt | resources | initializer | expressionList | caseLabels => 8
  | expression | caseLabel => 7
  | ternary => 6
  | binary _ => 5
  | unary | compilationUnit | members | lambdaParameter => 4
  | primary | unitItems | header | typeParameterRest | enumConstants | member | parameter
  | localVarDecl _ => 3
  | typeUse | modifiers => 2
  | annotations | modifierRest | .variables | suffixes => 1
  | _ => 0

/-- The rank in front of one of the starters. -/
def startRank : Rule → Nat
  | annotations => 1
  | typeUse => 2
  | _ => 0

/-- At the end of the input a rule refers only to rules of lower rank. -/
def endRank : Rule → Nat
  | statement | switchCase => 6
  | lambda | initializer | exprStmt | switch _ | expressionList | caseLabels => 5
  | expression | caseLabel => 4
  | ternary | lambdaParameter => 3
  | binary _ | parameter | methodRest | localVarDecl _ | creation => 2
  | unary | compilationUnit | annotationUse | typeDecl | typeParameters | member | parameters
  | typeUse | typeArguments _ | statementBlock | block | .variables | arrayInit | arguments => 1
  | _ => 0

end Rule

/-! ## The survey in front of a token -/

/-- What is known of a cursor since the survey began. -/
inductive Standing where
  /-- A token was taken. -/
  | moved
  /-- Perhaps no token was taken; if so, the next one is of these kinds. -/
  | still (known : Option (List TokenKind))

namespace Standing

/-- What is known whichever of two ways was gone. -/
def join : Standing → Standing → Standing
  | moved, moved => moved
  | _, _ => still none

/-- The standing describes a cursor reached from `c`. -/
def Describes (c c' : Cursor) : Standing → Prop
  | moved => c.taken < c'.taken
  | still known => c'.taken = c.taken → c'.Among known

theorem Describes.of_lt {c c' : Cursor} (s : Standing) (h : c.taken < c'.taken) :
    s.Describes c c' := by
  cases s with
  | moved => exact h
  | still known => exact fun htaken => absurd htaken (Nat.ne_of_gt h)

theorem Describes.of_stayed {c c₁ c₂ : Cursor} {s : Standing} (hstayed : c₁.taken = c.taken)
    (h : s.Describes c₁ c₂) : s.Describes c c₂ := by
  cases s with
  | moved =>
      rw [Describes, hstayed] at h
      exact h
  | still known => exact fun htaken => h (htaken.trans hstayed.symm)

theorem Describes.join_left {c c' : Cursor} {s t : Standing} (h : s.Describes c c') :
    (s.join t).Describes c c' := by
  cases s <;> cases t
  · exact h
  all_goals exact fun _ => trivial

theorem Describes.join_right {c c' : Cursor} {s t : Standing} (h : t.Describes c c') :
    (s.join t).Describes c c' := by
  cases s <;> cases t
  · exact h
  all_goals exact fun _ => trivial

end Standing

namespace Form

/-- What is known of the next token behind a rule that took none. The token is no
starter of the rule, and it is the same one unless it can be cut. -/
def uncut (r : Rule) (known : Option (List TokenKind)) : Option (List TokenKind) :=
  (known.filter fun ks => ks.all fun k => !splittable.contains k).map fun ks =>
    ks.filter fun k => !r.starters.contains k

/-- A reference to a rule in front of a token. -/
def surveyRule (bound : Nat) (r : Rule) (known : Option (List TokenKind)) : Option Standing :=
  if (known.map fun ks => ks.all r.starters.contains).getD false then
    if r.startRank < bound then some .moved else none
  else if r.rank < bound then some (if r.takesAny then .moved else .still (uncut r known))
  else none

/-- Go over a form in front of a token of which `known` is known. The survey
fails at a reference to a rule whose rank is not below `bound`. -/
def survey (bound : Nat) : Form → Option (List TokenKind) → Option Standing
  | done, known | missing _, known | discard _, known => some (.still known)
  | take _, _ => some .moved
  | splitAngle, _ => some (.still none)
  | seq first second, known =>
    match first.survey bound known with
    | some (.still known) => second.survey bound known
    | result => result
  | choose look yes no, known =>
    match look.settled known with
    | some true => yes.survey bound (look.kinds <|> known)
    | some false => no.survey bound (look.refute known)
    | none =>
      match yes.survey bound (look.kinds <|> known), no.survey bound (look.refute known) with
      | some s, some t => some (s.join t)
      | _, _ => none
  | enclose _ body, known | within body, known => body.survey bound known
  | orElse first second, known | ifStuck first second, known =>
    match first.survey bound known with
    | some (.still _) => (second.survey bound none).map (Standing.join .moved)
    | result => result
  | rule name, known => surveyRule bound name known

/-- Go over a form at the end of the input. -/
def surveyEnd (bound : Nat) : Form → Bool
  | seq first second | orElse first second | ifStuck first second =>
    first.surveyEnd bound && second.surveyEnd bound
  | choose look yes no =>
    look.frameless && if look.holds [] [] then yes.surveyEnd bound else no.surveyEnd bound
  | enclose _ body | within body => body.surveyEnd bound
  | rule name => name.endRank < bound
  | _ => true

/-- A rule moves on from a token that it takes. -/
def Moves (goto : Behaviour) : Prop :=
  ∀ r frame c frame' c', goto r frame c frame' c' →
    Onward c c' ∧ (c.Solid → c.rest ≠ [] → r.takesAny = true ∨ c.next.kind ∈ r.starters →
      c.taken < c'.taken)

/-- In front of a token that a rule begins with it is known to take that; else it is a rule of lower
rank. -/
theorem surveyRule_eq_some {r : Rule} {bound : Nat} {known : Option (List TokenKind)} {s : Standing}
    {c : Cursor} (hs : surveyRule bound r known = some s) (hknown : c.Among known) :
    (c.next.kind ∈ r.starters ∧ r.startRank < bound ∧ s = .moved) ∨
      (r.rank < bound ∧ s = if r.takesAny then .moved else .still (uncut r known)) := by
  unfold surveyRule at hs
  split at hs
  next hstarts =>
      split at hs
      next hrank =>
          cases hs
          cases known with
          | none => cases hstarts
          | some ks =>
              have hstart := List.all_eq_true.mp hstarts _ hknown
              exact .inl ⟨List.contains_iff_mem.mp hstart, hrank, rfl⟩
      next => cases hs
  next =>
      split at hs
      next hrank =>
          cases hs
          exact .inr ⟨hrank, rfl⟩
      next => cases hs

theorem surveyRule_describes {goto : Behaviour} (hgoto : Moves goto) {r : Rule} {bound : Nat}
    {known : Option (List TokenKind)} {s : Standing} {frame frame' : Frame} {c c' : Cursor}
    (hs : surveyRule bound r known = some s) (hsolid : c.Solid) (hrest : c.rest ≠ [])
    (hknown : c.Among known) (h : goto r frame c frame' c') : s.Describes c c' := by
  obtain ⟨honward, hmoves⟩ := hgoto _ _ _ _ _ h
  rcases surveyRule_eq_some hs hknown with ⟨hstart, _, rfl⟩ | ⟨_, rfl⟩
  · exact hmoves hsolid hrest (.inr hstart)
  · split
    next htakes => exact hmoves hsolid hrest (.inl htakes)
    next =>
        intro htaken
        cases known with
        | none => trivial
        | some ks =>
            simp only [uncut, Option.filter]
            split
            next hcut =>
                have hnext := List.all_eq_true.mp hcut _ hknown
                have hsame := (honward.stayed htaken).2 (by simpa using hnext)
                have hstart : c.next.kind ∉ r.starters := fun hstart =>
                  Nat.ne_of_gt (hmoves hsolid hrest (.inr hstart)) htaken
                rw [Option.map_some, Cursor.Among, honward.next_eq hsame]
                exact List.mem_filter.mpr ⟨hknown, by simpa using hstart⟩
            next => trivial

/-- The branch that is chosen in front of a token was gone over, and what was found of it was found
of the choice. -/
theorem survey_choose {look : Look} {yes no : Form} {bound : Nat}
    {known : Option (List TokenKind)} {s : Standing} {frame : Frame} {c : Cursor} {answer : Bool}
    (hs : (choose look yes no).survey bound known = some s) (hsolid : c.Solid) (hrest : c.rest ≠ [])
    (hknown : c.Among known) (hlook : look.holds frame c.rest = answer) :
    ∃ known' t, (bif answer then yes else no).survey bound known' = some t ∧ c.Among known' ∧
      ∀ c', t.Describes c c' → s.Describes c c' := by
  have hsettled {answer' : Bool} (h : look.settled known = some answer') : answer = answer' :=
    hlook.symm.trans (Look.holds_of_settled hrest (hsolid.next hrest).kind hknown h)
  have hyes (h : answer = true) : c.Among (look.kinds <|> known) :=
    Look.among_kinds_or hrest hknown (hlook.trans h)
  have hno (h : answer = false) : c.Among (look.refute known) :=
    Look.among_refute hrest hknown (hlook.trans h)
  simp only [survey] at hs
  split at hs
  next h =>
      obtain rfl := hsettled h
      exact ⟨_, s, hs, hyes rfl, fun _ => id⟩
  next h =>
      obtain rfl := hsettled h
      exact ⟨_, s, hs, hno rfl, fun _ => id⟩
  next =>
      split at hs
      next t u ht hu =>
          cases hs
          cases answer with
          | true => exact ⟨_, t, ht, hyes rfl, fun _ => .join_left⟩
          | false => exact ⟨_, u, hu, hno rfl, fun _ => .join_right⟩
      next => cases hs

/-- What the survey says of a form is true of its runs. -/
theorem Does.describes {goto : Behaviour} (hgoto : Moves goto) {f : Form} {bound : Nat}
    {known : Option (List TokenKind)} {s : Standing} {frame frame' : Frame} {c c' : Cursor}
    (hs : f.survey bound known = some s) (hsolid : c.Solid) (hrest : c.rest ≠ [])
    (hknown : c.Among known) (h : f.Does goto frame c frame' c') : s.Describes c c' := by
  have honward : ∀ {f : Form} {frame c frame' c'}, f.Does goto frame c frame' c' → Onward c c' :=
    fun h => h.onward fun _ _ _ _ _ hrule => (hgoto _ _ _ _ _ hrule).1
  induction f generalizing frame c frame' c' known s with
  | done | missing | discard =>
      obtain ⟨_, rfl⟩ := h
      cases hs
      exact fun _ => hknown
  | take kind =>
      obtain ⟨_, rfl⟩ := h
      cases hs
      cases hc : c.rest with
      | nil => exact absurd hc hrest
      | cons t rest => simp [Standing.Describes, Cursor.advance, hc]
  | splitAngle =>
      cases hs
      exact fun _ => trivial
  | seq first second ihfirst ihsecond =>
      obtain ⟨middle, between, hfirst, hsecond⟩ := h
      have hon₁ := honward hfirst
      have hon₂ := honward hsecond
      simp only [survey] at hs
      split at hs
      next known' hstill =>
          by_cases htaken : between.taken = c.taken
          · have hnext := ihfirst hstill hsolid hrest hknown hfirst htaken
            have hrest' : between.rest ≠ [] := fun hend => hrest ((hon₁.stayed htaken).1 hend)
            exact (ihsecond hs (hon₁.solid hsolid) hrest' hnext hsecond).of_stayed htaken
          · have := hon₁.taken_le
            have := hon₂.taken_le
            exact .of_lt s (by omega)
      next hstill =>
          cases s with
          | moved => exact Nat.lt_of_lt_of_le (ihfirst hs hsolid hrest hknown hfirst) hon₂.taken_le
          | still known' => exact absurd hs (hstill known')
  | choose look yes no ihyes ihno =>
      rcases h with ⟨hlook, hyes⟩ | ⟨hlook, hno⟩
      · obtain ⟨_, t, ht, hknown', hst⟩ := survey_choose hs hsolid hrest hknown hlook
        exact hst _ (ihyes ht hsolid hrest hknown' hyes)
      · obtain ⟨_, t, ht, hknown', hst⟩ := survey_choose hs hsolid hrest hknown hlook
        exact hst _ (ihno ht hsolid hrest hknown' hno)
  | enclose label body ih | within body ih =>
      obtain ⟨children, hbody, _⟩ := h
      exact ih hs hsolid hrest hknown hbody
  | orElse first second ihfirst ihsecond | ifStuck first second ihfirst ihsecond =>
      obtain ⟨nodes, between, hfirst, hor⟩ := h
      have hon₁ := honward hfirst
      simp only [survey] at hs
      split at hs
      next known' hstill =>
          obtain ⟨t, ht, rfl⟩ := Option.map_eq_some_iff.mp hs
          rcases hor with ⟨htaken, hsecond⟩ | ⟨htaken, _, rfl⟩
          · have hrest' : between.rest ≠ [] := fun hend => hrest ((hon₁.stayed htaken).1 hend)
            exact ((ihsecond ht (hon₁.solid hsolid) hrest' trivial hsecond).of_stayed
              htaken).join_right
          · exact .of_lt _ (Nat.lt_of_le_of_ne hon₁.taken_le (Ne.symm htaken))
      next hstill =>
          cases s with
          | moved =>
              have hlt := ihfirst hs hsolid hrest hknown hfirst
              rcases hor with ⟨htaken, _⟩ | ⟨_, _, rfl⟩
              · exact absurd htaken (Nat.ne_of_gt hlt)
              · exact hlt
          | still known' => exact absurd hs (hstill known')
  | rule name => exact surveyRule_describes hgoto hs hsolid hrest hknown h

end Form

/-! ## The survey of every rule -/

namespace Grammar

theorem survey_binaryOperators (bound least : Nat) (levels : List (Nat × List TokenKind))
    (known : Option (List TokenKind)) :
    ∃ s, (binaryOperators least levels).survey bound known = some s := by
  induction levels generalizing known with
  | nil => exact ⟨_, rfl⟩
  | cons level levels ih =>
      unfold binaryOperators
      split
      next =>
          -- an operator in front is taken, whatever comes behind it
          obtain ⟨s, hs⟩ := ih (Look.refute known (.next level.2))
          change ∃ s, (match Look.settled known (.next level.2) with
            | some true => some .moved
            | some false => (binaryOperators least levels).survey bound _
            | none =>
              match some Standing.moved, (binaryOperators least levels).survey bound _ with
              | some s, some t => some (s.join t)
              | _, _ => none) = some s
          rw [hs]
          split <;> exact ⟨_, rfl⟩
      next => exact ih known

theorem surveyEnd_binaryOperators (bound least : Nat) {levels : List (Nat × List TokenKind)}
    (hlevels : ∀ level ∈ levels, level.2.contains .eof = false) :
    (binaryOperators least levels).surveyEnd bound = true := by
  induction levels with
  | nil => rfl
  | cons level levels ih =>
      have htail := ih fun level hmem => hlevels level (List.mem_cons_of_mem _ hmem)
      have hhead : Look.holds [] [] (.next level.2) = false :=
        hlevels level List.mem_cons_self
      unfold binaryOperators
      split
      next => simp only [Form.surveyEnd, Look.frameless, hhead, htail, Bool.true_and,
          Bool.false_eq_true, if_false]
      next => exact htail

end Grammar

namespace Rule

/-- Every form passes the survey at the rank of its rule. -/
theorem survey_form (r : Rule) :
    ∃ s, r.form.survey r.rank none = some s ∧ (r.takesAny = true → s = .moved) := by
  cases r with
  | operators least =>
      obtain ⟨s, hs⟩ := Grammar.survey_binaryOperators 0 least Grammar.binaryLevels none
      by_cases hleast : least ≤ Grammar.instanceofLevel
      · refine ⟨Standing.join .moved s, ?_, fun h => absurd h (by simp [takesAny])⟩
        simp only [form, hleast, if_true]
        change (match some Standing.moved, Form.survey 0 _ none with
          | some s, some t => some (s.join t)
          | _, _ => none) = _
        rw [hs]
      · refine ⟨Standing.join .moved s, ?_, fun h => absurd h (by simp [takesAny])⟩
        simp only [form, hleast, if_false]
        change (match some Standing.moved, Form.survey 0 _ none with
          | some s, some t => some (s.join t)
          | _, _ => none) = _
        rw [hs]
  | nested n => cases n <;> exact ⟨_, rfl, by simp [takesAny]⟩
  | classBody b | localVarDecl b | qualifiedName b | nameRest b =>
      cases b <;> exact ⟨_, rfl, by simp [takesAny]⟩
  | statements kinds | skipTo kinds => cases kinds <;> exact ⟨_, rfl, by simp [takesAny]⟩
  | list close item => cases item <;> exact ⟨_, rfl, by simp [takesAny]⟩
  | _ => exact ⟨_, rfl, by simp [takesAny]⟩

/-- In front of a starter every form takes a token, and refers to no rule of the
rank it has there before it does. -/
theorem survey_form_start (r : Rule) (h : r.starters ≠ []) :
    r.form.survey r.startRank (some r.starters) = some .moved := by
  cases r with
  | annotations | typeUse | arguments | block => rfl
  | _ => exact absurd rfl h

/-- Every form passes the survey at the end of the input. -/
theorem surveyEnd_form (r : Rule) : r.form.surveyEnd r.endRank = true := by
  cases r with
  | operators least =>
      have hlevels : ∀ level ∈ Grammar.binaryLevels, level.2.contains .eof = false := by decide
      have hbinary := Grammar.surveyEnd_binaryOperators 0 least hlevels
      by_cases hleast : least ≤ Grammar.instanceofLevel
      · simp only [form, hleast, if_true]
        exact hbinary
      · simp only [form, hleast, if_false]
        exact hbinary
  | nested n => cases n <;> rfl
  | classBody b | localVarDecl b | qualifiedName b | nameRest b => cases b <;> rfl
  | list close item =>
      have hend : Look.holds [] [] (.next [close, .eof]) = true := by simp [Look.holds, Skim.kindAt]
      simp only [form, Form.surveyEnd, Look.frameless, hend, Bool.true_and, if_true]
  | _ => rfl

/-- A rule that takes the next token moves on. -/
theorem Reads.moves : Form.Moves Reads := by
  intro r frame c frame' c' hreads
  refine hreads.induct (fun r _ c _ c' => Onward c c' ∧ (c.Solid → c.rest ≠ [] →
    r.takesAny = true ∨ c.next.kind ∈ r.starters → c.taken < c'.taken)) ?_
  intro r frame c frame' c' hform
  refine ⟨hform.onward fun _ _ _ _ _ h => h.1, ?_⟩
  rintro hsolid hrest (htakes | hstarts)
  · obtain ⟨s, hs, hmoved⟩ := r.survey_form
    rw [hmoved htakes] at hs
    exact hform.describes (fun _ _ _ _ _ => id) hs hsolid hrest trivial
  · have hs := r.survey_form_start (List.ne_nil_of_mem hstarts)
    exact hform.describes (fun _ _ _ _ _ => id) hs hsolid hrest hstarts

end Rule

/-! ## The nesting of rules -/

namespace Form

variable {goto : Behaviour}

/-- Every rule that the form comes to ends. -/
def Safe (goto : Behaviour) : Form → Frame → Cursor → Prop
  | seq first second, frame, c =>
    first.Safe goto frame c ∧
      ∀ frame' c', first.Does goto frame c frame' c' → second.Safe goto frame' c'
  | choose look yes no, frame, c =>
    if look.holds frame c.rest then yes.Safe goto frame c else no.Safe goto frame c
  | enclose _ body, frame, c => body.Safe goto frame c
  | within body, _, c => body.Safe goto [] c
  | orElse first second, frame, c =>
    first.Safe goto [] c ∧ ∀ nodes c', first.Does goto [] c nodes c' → c'.taken = c.taken →
      second.Safe goto frame c'
  | ifStuck first second, frame, c =>
    first.Safe goto frame c ∧ ∀ frame' c', first.Does goto frame c frame' c' →
      c'.taken = c.taken → second.Safe goto frame' c'
  | rule name, frame, c => ∃ frame' c', goto name frame c frame' c'
  | _, _, _ => True

theorem Safe.ends {f : Form} {frame : Frame} {c : Cursor} (h : f.Safe goto frame c) :
    ∃ frame' c', f.Does goto frame c frame' c' := by
  induction f generalizing frame c with
  | done | take | missing | splitAngle | discard => exact ⟨_, _, rfl, rfl⟩
  | seq first second ihfirst ihsecond =>
      obtain ⟨middle, between, hfirst⟩ := ihfirst h.1
      obtain ⟨frame', c', hsecond⟩ := ihsecond (h.2 _ _ hfirst)
      exact ⟨frame', c', middle, between, hfirst, hsecond⟩
  | choose look yes no ihyes ihno =>
      rw [Safe] at h
      split at h
      next hlook => exact (ihyes h).imp fun _ => Exists.imp fun _ h => .inl ⟨hlook, h⟩
      next hlook =>
          exact (ihno h).imp fun _ => Exists.imp fun _ h => .inr ⟨by simpa using hlook, h⟩
  | enclose label body ih | within body ih =>
      obtain ⟨children, c', hbody⟩ := ih h
      exact ⟨_, c', children, hbody, rfl⟩
  | orElse first second ihfirst ihsecond | ifStuck first second ihfirst ihsecond =>
      obtain ⟨nodes, between, hfirst⟩ := ihfirst h.1
      by_cases htaken : between.taken = c.taken
      · obtain ⟨frame', c', hsecond⟩ := ihsecond (h.2 _ _ hfirst htaken)
        exact ⟨frame', c', nodes, between, hfirst, .inl ⟨htaken, hsecond⟩⟩
      · exact ⟨_, _, nodes, between, hfirst, .inr ⟨htaken, rfl, rfl⟩⟩
  | rule name => exact h

/-- A form is safe where all rules end, now and further on. -/
theorem safe_of_rules {P : Cursor → Prop}
    (hgoto : ∀ r frame c frame' c', goto r frame c frame' c' → Onward c c')
    (hkeep : ∀ c c', Onward c c' → P c → P c')
    (hrules : ∀ r frame c, P c → ∃ frame' c', goto r frame c frame' c')
    (f : Form) (frame : Frame) {c : Cursor} (hc : P c) : f.Safe goto frame c := by
  induction f generalizing frame c with
  | done | take | missing | splitAngle | discard => trivial
  | seq first second ihfirst ihsecond =>
      exact ⟨ihfirst frame hc, fun _ _ h => ihsecond _ (hkeep _ _ (h.onward hgoto) hc)⟩
  | choose look yes no ihyes ihno =>
      rw [Safe]
      split
      next => exact ihyes frame hc
      next => exact ihno frame hc
  | enclose label body ih | within body ih => exact ih _ hc
  | orElse first second ihfirst ihsecond | ifStuck first second ihfirst ihsecond =>
      exact ⟨ihfirst _ hc, fun _ _ h _ => ihsecond _ (hkeep _ _ (h.onward hgoto) hc)⟩
  | rule name => exact hrules name frame c hc

/-- At the end of the input a form is safe if the rules are that its survey
allows. -/
theorem safe_of_surveyEnd {bound : Nat}
    (hgoto : ∀ r frame c frame' c', goto r frame c frame' c' → Onward c c')
    (hrules : ∀ r frame c, c.rest = [] → r.endRank < bound →
      ∃ frame' c', goto r frame c frame' c')
    {f : Form} (hs : f.surveyEnd bound = true) (frame : Frame) {c : Cursor} (hc : c.rest = []) :
    f.Safe goto frame c := by
  induction f generalizing frame c with
  | done | take | missing | splitAngle | discard => trivial
  | seq first second ihfirst ihsecond =>
      simp only [surveyEnd, Bool.and_eq_true] at hs
      exact ⟨ihfirst hs.1 _ hc, fun _ _ h => ihsecond hs.2 _ ((h.onward hgoto).ended hc)⟩
  | choose look yes no ihyes ihno =>
      simp only [surveyEnd, Bool.and_eq_true] at hs
      rw [Safe, hc, Look.holds_of_frameless hs.1]
      split
      next hlook =>
          rw [if_pos hlook] at hs
          exact ihyes hs.2 frame hc
      next hlook =>
          rw [if_neg hlook] at hs
          exact ihno hs.2 frame hc
  | enclose label body ih | within body ih => exact ih hs _ hc
  | orElse first second ihfirst ihsecond | ifStuck first second ihfirst ihsecond =>
      simp only [surveyEnd, Bool.and_eq_true] at hs
      exact ⟨ihfirst hs.1 _ hc, fun _ _ h _ => ihsecond hs.2 _ ((h.onward hgoto).ended hc)⟩
  | rule name => exact hrules name frame c hc (of_decide_eq_true hs)

/-- In front of a token a form is safe if the rules are that its survey allows,
and all rules are once a token is taken. -/
theorem safe_of_survey {bound bytes : Nat} (hgoto : Moves goto)
    (hbelow : ∀ r frame c, c.Solid ∧ c.left < bytes → ∃ frame' c', goto r frame c frame' c')
    (hrules : ∀ r frame c, c.Solid → c.rest ≠ [] → c.left = bytes →
      r.rank < bound ∨ (c.next.kind ∈ r.starters ∧ r.startRank < bound) →
      ∃ frame' c', goto r frame c frame' c')
    {f : Form} {known : Option (List TokenKind)} {s : Standing}
    (hs : f.survey bound known = some s) (frame : Frame) {c : Cursor} (hsolid : c.Solid)
    (hrest : c.rest ≠ []) (hleft : c.left = bytes) (hknown : c.Among known) :
    f.Safe goto frame c := by
  have honward := fun r frame c frame' c' h => (hgoto r frame c frame' c' h).1
  have hmoved (f : Form) (frame : Frame) {c c' : Cursor} (hsolid : c.Solid)
      (hleft : c.left = bytes) (hon : Onward c c') (htaken : c.taken < c'.taken) :
      f.Safe goto frame c' :=
    safe_of_rules honward
      (fun c c' h hc => ⟨h.solid hc.1, by
        rcases Nat.lt_or_eq_of_le h.taken_le with hlt | heq
        · exact Nat.lt_trans (h.moved_left hc.1 hlt) hc.2
        · exact h.stayed_left hc.1 heq.symm ▸ hc.2⟩)
      hbelow f frame ⟨hon.solid hsolid, hleft ▸ hon.moved_left hsolid htaken⟩
  induction f generalizing frame c known s with
  | done | take | missing | splitAngle | discard => trivial
  | seq first second ihfirst ihsecond =>
      simp only [survey] at hs
      split at hs
      next known' hfirst =>
          refine ⟨ihfirst hfirst frame hsolid hrest hleft hknown, fun frame' c' h => ?_⟩
          have hon := h.onward honward
          by_cases htaken : c'.taken = c.taken
          · exact ihsecond hs frame' (hon.solid hsolid)
              (fun hend => hrest ((hon.stayed htaken).1 hend))
              ((hon.stayed_left hsolid htaken).trans hleft)
              (h.describes hgoto hfirst hsolid hrest hknown htaken)
          · exact hmoved _ _ hsolid hleft hon (Nat.lt_of_le_of_ne hon.taken_le (Ne.symm htaken))
      next hfirst =>
          cases s with
          | still known' => exact absurd hs (hfirst known')
          | moved =>
              refine ⟨ihfirst hs frame hsolid hrest hleft hknown, fun frame' c' h => ?_⟩
              exact hmoved _ _ hsolid hleft (h.onward honward)
                (h.describes hgoto hs hsolid hrest hknown)
  | choose look yes no ihyes ihno =>
      rw [Safe]
      split
      next hlook =>
          obtain ⟨_, t, ht, hknown', _⟩ := survey_choose hs hsolid hrest hknown hlook
          exact ihyes ht frame hsolid hrest hleft hknown'
      next hlook =>
          rw [Bool.not_eq_true] at hlook
          obtain ⟨_, t, ht, hknown', _⟩ := survey_choose hs hsolid hrest hknown hlook
          exact ihno ht frame hsolid hrest hleft hknown'
  | enclose label body ih | within body ih => exact ih hs _ hsolid hrest hleft hknown
  | orElse first second ihfirst ihsecond | ifStuck first second ihfirst ihsecond =>
      simp only [survey] at hs
      split at hs
      next known' hfirst =>
          obtain ⟨t, ht, rfl⟩ := Option.map_eq_some_iff.mp hs
          refine ⟨ihfirst hfirst _ hsolid hrest hleft hknown, fun nodes c' h htaken => ?_⟩
          have hon := h.onward honward
          exact ihsecond ht _ (hon.solid hsolid)
            (fun hend => hrest ((hon.stayed htaken).1 hend))
            ((hon.stayed_left hsolid htaken).trans hleft) trivial
      next hfirst =>
          cases s with
          | still known' => exact absurd hs (hfirst known')
          | moved =>
              refine ⟨ihfirst hs _ hsolid hrest hleft hknown, fun nodes c' h htaken => ?_⟩
              exact absurd htaken (Nat.ne_of_gt (h.describes hgoto hs hsolid hrest hknown))
  | rule name =>
      refine hrules name frame c hsolid hrest hleft ?_
      rcases surveyRule_eq_some hs hknown with ⟨hstart, hrank, _⟩ | ⟨hrank, _⟩
      · exact .inr ⟨hstart, hrank⟩
      · exact .inl hrank

end Form

namespace Rule

/-- The rank of a rule at a cursor. -/
def height (r : Rule) (c : Cursor) : Nat :=
  if c.rest = [] then r.endRank
  else if c.next.kind ∈ r.starters then r.startRank
  else r.rank

theorem rank_lt (r : Rule) : r.rank < 64 := by
  cases r <;> simp [rank]

theorem startRank_le (r : Rule) : r.startRank ≤ r.rank := by
  cases r <;> simp [startRank, rank]

theorem endRank_lt (r : Rule) : r.endRank < 64 := by
  cases r <;> simp [endRank]

theorem height_lt (r : Rule) (c : Cursor) : r.height c < 64 := by
  unfold height
  split
  next => exact r.endRank_lt
  next =>
      split
      next => exact Nat.lt_of_le_of_lt r.startRank_le r.rank_lt
      next => exact r.rank_lt

theorem height_lt_of_survey {r : Rule} {c : Cursor} {bound : Nat} (hrest : c.rest ≠ [])
    (h : r.rank < bound ∨ (c.next.kind ∈ r.starters ∧ r.startRank < bound)) :
    r.height c < bound := by
  rw [height, if_neg hrest]
  split
  next hstarts => exact h.elim (Nat.lt_of_le_of_lt r.startRank_le) And.right
  next hstarts => exact h.resolve_right fun h => hstarts h.1

/-- A run ends if its budget allows 64 nested rules for each byte ahead. -/
theorem run_ends {budget : Nat} {r : Rule} (frame : Frame) {c : Cursor} (hsolid : c.Solid)
    (hbudget : 64 * c.left + r.height c < budget) :
    ∃ frame' c', r.run budget frame c = some (frame', c') := by
  induction budget generalizing r frame c with
  | zero => exact absurd hbudget (Nat.not_lt_zero _)
  | succ budget ih =>
      simp only [run, Form.perform_eq_some]
      have hmoves : Form.Moves fun r frame c frame' c' => r.run budget frame c = some (frame', c') :=
        fun r frame c frame' c' hrun => Reads.moves r frame c frame' c' ⟨budget, hrun⟩
      by_cases hrest : c.rest = []
      · have hheight : r.height c = r.endRank := if_pos hrest
        refine (Form.safe_of_surveyEnd (fun _ _ _ _ _ h => (hmoves _ _ _ _ _ h).1) ?_
          r.surveyEnd_form frame hrest).ends
        intro r' frame' c' hrest' hrank
        have hleft : c'.left = 0 := by simp [Cursor.left, hrest']
        have hheight' : r'.height c' = r'.endRank := if_pos hrest'
        exact ih frame' (by simp [Cursor.Solid, hrest']) (by omega)
      · have hbelow : ∀ (r' : Rule) frame' (c' : Cursor), c'.Solid ∧ c'.left < c.left →
            ∃ frame'' c'', r'.run budget frame' c' = some (frame'', c'') := by
          intro r' frame' c' hc'
          have hheight := r'.height_lt c'
          exact ih frame' hc'.1 (by omega)
        have hrules : ∀ (r' : Rule) frame' (c' : Cursor), c'.Solid → c'.rest ≠ [] →
            c'.left = c.left →
            r'.rank < r.height c ∨ (c'.next.kind ∈ r'.starters ∧ r'.startRank < r.height c) →
            ∃ frame'' c'', r'.run budget frame' c' = some (frame'', c'') := by
          intro r' frame' c' hsolid' hrest' hleft' hrank
          have hheight := height_lt_of_survey hrest' hrank
          exact ih frame' hsolid' (by omega)
        -- in front of a starter the survey begins with more knowledge and a lower bound
        by_cases hstarts : c.next.kind ∈ r.starters
        · have hheight : r.height c = r.startRank := by rw [height, if_neg hrest, if_pos hstarts]
          rw [hheight] at hrules
          exact (Form.safe_of_survey hmoves hbelow hrules
            (r.survey_form_start (List.ne_nil_of_mem hstarts)) frame hsolid hrest rfl hstarts).ends
        · have hheight : r.height c = r.rank := by rw [height, if_neg hrest, if_neg hstarts]
          rw [hheight] at hrules
          obtain ⟨s, hs, _⟩ := r.survey_form
          exact (Form.safe_of_survey hmoves hbelow hrules hs frame hsolid hrest rfl trivial).ends

end Rule

end DotCompletion
