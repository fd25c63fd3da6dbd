import DotCompletion.Proofs.Grammar.Braces
import DotCompletion.Proofs.Grammar.Sketch

/-!
# Reading around a row of statements

What stands in the body of a method may be anything, so that its tree is not known. `TurnsAround`
says of a form what it makes around such a row: a known tree with an unknown row inside, unless a
node of the row took a brace that it did not open. It is put together along a form like `Turns`,
here for a class with two methods.
-/

namespace DotCompletion

open Form Lexeme

/-- Every form comes to an end. -/
theorem Form.exists_does (f : Form) (frame : Frame) {c : Cursor} (hsolid : c.Solid) :
    ∃ frame' c', f.Does Rule.Reads frame c frame' c' := by
  refine (safe_of_rules (P := Cursor.Solid) (fun _ _ _ _ _ h => h.onward) (fun _ _ h => h.solid) ?_ f
    frame hsolid).ends
  intro r frame c hsolid
  obtain ⟨frame', c', hrun⟩ := Rule.run_ends (r := r) frame hsolid (Nat.lt_succ_self _)
  exact ⟨frame', c', _, hrun⟩

/-! ## Reading around a row of statements -/

namespace Form

/-- Like `Turns`, but for a row of sketches somewhere inside, of which only `P` is known. Where
`word` holds a node below may have taken a brace that it did not open. -/
def TurnsAround (word : Prop) (P : List Sketch → Prop) (f : Form) (frame : List Sketch)
    (row : List Lexeme) (out : List Sketch → List Sketch) (row' : List Lexeme) : Prop :=
  ∀ nodes c, nodes.map Node.sketch = frame → c.row = row → c.Solid →
    ∃ nodes' c', f.Does Rule.Reads nodes c nodes' c' ∧
      ((word ∧ ¬Frame.Tidy nodes') ∨
        ∃ body, P body ∧ nodes'.map Node.sketch = out body ∧ c'.row = row')

variable {word : Prop} {P Q : List Sketch → Prop} {f g : Form} {frame frame' : List Sketch}
  {row row' row'' : List Lexeme} {out out' : List Sketch → List Sketch} {body : List Sketch}

theorem Turns.around (h : f.Turns frame row (out body) row') (hP : P body) :
    f.TurnsAround word P frame row out row' := by
  intro nodes c hnodes hrow _
  obtain ⟨nodes', c', hdoes, hmade, hrow'⟩ := h nodes c hnodes hrow
  exact ⟨nodes', c', hdoes, .inr ⟨body, hP, hmade, hrow'⟩⟩

namespace TurnsAround

/-- A row inside that is known is part of what is made. -/
theorem fix {inner : List Sketch} (h : f.TurnsAround word (· = inner) frame row out row')
    (hmade : out inner = out' body) : f.TurnsAround word (· = body) frame row out' row' := by
  intro nodes c hnodes hrow hsolid
  obtain ⟨nodes', c', hdoes, hkept⟩ := h nodes c hnodes hrow hsolid
  refine ⟨nodes', c', hdoes, hkept.imp_right ?_⟩
  rintro ⟨_, rfl, hsketch, hrow'⟩
  exact ⟨body, rfl, hsketch.trans hmade, hrow'⟩

theorem seq_left (hf : f.Turns frame row frame' row')
    (hg : g.TurnsAround word P frame' row' out row'') :
    (f ++ g).TurnsAround word P frame row out row'' := by
  intro nodes c hnodes hrow hsolid
  obtain ⟨middle, between, hfirst, hmiddle, hbetween⟩ := hf nodes c hnodes hrow
  have honward := hfirst.onward fun _ _ _ _ _ => Rule.Reads.onward
  obtain ⟨nodes', c', hsecond, hmade⟩ := hg middle between hmiddle hbetween (honward.solid hsolid)
  exact ⟨nodes', c', ⟨middle, between, hfirst, hsecond⟩, hmade⟩

/-- What was taken below stays taken, whatever follows. -/
theorem exists_untidy (hsteady : g.steady = true) {nodes : Frame} (hnodes : ¬nodes.Tidy)
    {c : Cursor} (hsolid : c.Solid) :
    ∃ nodes' c', g.Does Rule.Reads nodes c nodes' c' ∧ ¬nodes'.Tidy := by
  obtain ⟨nodes', c', hdoes⟩ := g.exists_does nodes hsolid
  refine ⟨nodes', c', hdoes, fun htidy => hnodes ?_⟩
  exact (hdoes.mono fun _ _ _ _ _ => Rule.Reads.every_of_steady).every_of_steady hsteady htidy

theorem seq_right (hf : f.TurnsAround word P frame row out row')
    (hg : ∀ body, P body → g.TurnsAround word (· = body) (out body) row' out' row'')
    (hsteady : g.steady = true) : (f ++ g).TurnsAround word P frame row out' row'' := by
  intro nodes c hnodes hrow hsolid
  obtain ⟨middle, between, hfirst, hmade⟩ := hf nodes c hnodes hrow hsolid
  have hbetween := (hfirst.onward fun _ _ _ _ _ => Rule.Reads.onward).solid hsolid
  rcases hmade with ⟨hword, huntidy⟩ | ⟨body, hP, hsketch, hrow'⟩
  · obtain ⟨nodes', c', hsecond, huntidy'⟩ := exists_untidy hsteady huntidy hbetween
    exact ⟨nodes', c', ⟨middle, between, hfirst, hsecond⟩, .inl ⟨hword, huntidy'⟩⟩
  · obtain ⟨nodes', c', hsecond, hmade⟩ := hg body hP middle between hsketch hrow' hbetween
    refine ⟨nodes', c', ⟨middle, between, hfirst, hsecond⟩, hmade.imp_right ?_⟩
    rintro ⟨_, rfl, hsketch', hrow''⟩
    exact ⟨_, hP, hsketch', hrow''⟩

theorem yes {look : Look} (hlook : look.Answers frame row true)
    (hf : f.TurnsAround word P frame row out row') :
    (Form.choose look f g).TurnsAround word P frame row out row' := by
  intro nodes c hnodes hrow hsolid
  obtain ⟨nodes', c', hdoes, hmade⟩ := hf nodes c hnodes hrow hsolid
  exact ⟨nodes', c', .inl ⟨hlook nodes c.rest hnodes hrow, hdoes⟩, hmade⟩

theorem no {look : Look} (hlook : look.Answers frame row false)
    (hg : g.TurnsAround word P frame row out row') :
    (Form.choose look f g).TurnsAround word P frame row out row' := by
  intro nodes c hnodes hrow hsolid
  obtain ⟨nodes', c', hdoes, hmade⟩ := hg nodes c hnodes hrow hsolid
  exact ⟨nodes', c', .inr ⟨hlook nodes c.rest hnodes hrow, hdoes⟩, hmade⟩

theorem node (kind : NodeKind) (h : f.TurnsAround word P frame row out row') :
    (Form.node kind f).TurnsAround word P frame row (fun body => [.node kind (out body)]) row' := by
  intro nodes c hnodes hrow hsolid
  obtain ⟨children, c', hbody, hmade⟩ := h nodes c hnodes hrow hsolid
  refine ⟨_, c', ⟨children, hbody, rfl⟩, hmade.imp ?_ ?_⟩
  · exact fun hmade => ⟨hmade.1, fun htidy => hmade.2 htidy.of_around⟩
  · rintro ⟨body, hP, hsketch, hrow'⟩
    refine ⟨body, hP, ?_, hrow'⟩
    change _ = [Sketch.node kind (out body)]
    rw [List.map_singleton, Node.sketch_eq, ← hsketch]
    rfl

theorem within (h : f.TurnsAround word P [] row out row') (frame : List Sketch) :
    (Form.within f).TurnsAround word P frame row (fun body => frame ++ out body) row' := by
  rintro nodes c rfl hrow hsolid
  obtain ⟨made, c', hbody, hmade⟩ := h [] c rfl hrow hsolid
  refine ⟨nodes ++ made, c', ⟨made, hbody, rfl⟩, hmade.imp ?_ ?_⟩
  · exact fun hmade => ⟨hmade.1, fun htidy => hmade.2 htidy.right⟩
  · rintro ⟨body, hP, hsketch, hrow'⟩
    exact ⟨body, hP, by rw [List.map_append, hsketch], hrow'⟩

theorem rule {r : Rule} (h : r.form.TurnsAround word P frame row out row') :
    (Form.rule r).TurnsAround word P frame row out row' := by
  intro nodes c hnodes hrow hsolid
  obtain ⟨nodes', c', hdoes, hmade⟩ := h nodes c hnodes hrow hsolid
  exact ⟨nodes', c', Rule.Reads.intro hdoes, hmade⟩

theorem call {r : Rule} (h : r.form.TurnsAround word P [] row out row') (frame : List Sketch) :
    (Form.call r).TurnsAround word P frame row (fun body => frame ++ out body) row' :=
  h.rule.within frame

theorem ifStuck {l : Lexeme} (hf : f.TurnsAround word P frame (l :: row) out row')
    (hwhole : l.kind ∉ Cursor.splittable) (hmoved : row' ≠ l :: row) (hsteady : g.steady = true) :
    (Form.ifStuck f g).TurnsAround word P frame (l :: row) out row' := by
  intro nodes c hnodes hc hsolid
  obtain ⟨nodes', c', hdoes, hmade⟩ := hf nodes c hnodes hc hsolid
  have honward := hdoes.onward fun _ _ _ _ _ => Rule.Reads.onward
  by_cases htaken : c'.taken = c.taken
  · rcases hmade with ⟨hword, huntidy⟩ | ⟨_, _, _, hrow'⟩
    · obtain ⟨nodes'', c'', hsecond, huntidy'⟩ :=
        exists_untidy hsteady huntidy (honward.solid hsolid)
      exact ⟨nodes'', c'', ⟨nodes', c', hdoes, .inl ⟨htaken, hsecond⟩⟩, .inl ⟨hword, huntidy'⟩⟩
    · -- without a token taken the row would be the same
      obtain ⟨t, rest, hrest, rfl, -⟩ := List.map_eq_cons_iff.mp hc
      have hcut : Cursor.splittable.contains c.next.kind = false := by
        rw [Cursor.next_eq hrest]
        exact Bool.eq_false_iff.mpr fun h => hwhole (List.contains_iff_mem.mp h)
      have hsame := (honward.stayed htaken).2 hcut
      exact absurd (by rw [← hrow', ← hc, Cursor.row, hsame, Cursor.row]) hmoved
  · exact ⟨nodes', c', ⟨nodes', c', hdoes, .inr ⟨htaken, rfl, rfl⟩⟩, hmade⟩

end TurnsAround

end Form

/-! ## A class around two methods -/

namespace Look.Answers

variable {frame : List Sketch} {row : List Lexeme}

theorem annotationStart : annotationStart.Answers frame row
    (Skim.isAnnotationStart (kindAt row 0) (kindAt row 1)) := by
  rintro nodes tokens - rfl
  rw [holds, Skim.kindAt_eq_lexeme, Skim.kindAt_eq_lexeme]

theorem modifier : modifier.Answers frame row (Skim.isModifier (kindAt row 0) (kindAt row 1)) := by
  rintro nodes tokens - rfl
  rw [holds, Skim.kindAt_eq_lexeme, Skim.kindAt_eq_lexeme]

theorem typeDecl : typeDecl.Answers frame row (Skim.isTypeDecl (kindAt row 0) (kindAt row 1)) := by
  rintro nodes tokens - rfl
  rw [holds, Skim.kindAt_eq_lexeme, Skim.kindAt_eq_lexeme]

theorem second {kinds : List TokenKind} (h : kindAt row 1 ∈ kinds) :
    (Look.second kinds).Answers frame row true := by
  rintro nodes tokens - rfl
  rw [holds, Skim.kindAt_eq_lexeme]
  exact List.contains_iff_mem.mpr h

theorem either {a b : Look} {x y : Bool} (ha : a.Answers frame row x) (hb : b.Answers frame row y) :
    (Look.either a b).Answers frame row (x || y) := fun nodes tokens hnodes htokens => by
  rw [holds, ha nodes tokens hnodes htokens, hb nodes tokens hnodes htokens]

theorem both {a b : Look} {x y : Bool} (ha : a.Answers frame row x) (hb : b.Answers frame row y) :
    (Look.both a b).Answers frame row (x && y) := fun nodes tokens hnodes htokens => by
  rw [holds, ha nodes tokens hnodes htokens, hb nodes tokens hnodes htokens]

end Look.Answers

namespace Lexeme

/-- A method that takes nothing and returns nothing, with the tokens of its body, in front of
others. -/
def voidMethod (name : Lexeme) (body rest : List Lexeme) : List Lexeme :=
  sign .kwVoid :: name :: sign .lparen :: sign .rparen :: sign .lbrace ::
    (body ++ sign .rbrace :: rest)

/-- A class, in front of the tokens behind its opening brace. -/
def classHead (name : Lexeme) (rest : List Lexeme) : List Lexeme :=
  sign .kwClass :: name :: sign .lbrace :: rest

end Lexeme

namespace Sketch

/-- A method that takes nothing and returns nothing, with the statements of its body. -/
def voidMethod (name : Lexeme) (body : List Sketch) : Sketch :=
  .node .methodDecl
    [.node .typeUse [.token (sign .kwVoid)], .leaf .identifier name,
      .node .parameters [.token (sign .lparen), .token (sign .rparen)],
      .node .block ([.token (sign .lbrace)] ++ body ++ [.token (sign .rbrace)])]

/-- A file with a single class. -/
def classFile (name : Lexeme) (members : List Sketch) : Sketch :=
  .node .compilationUnit
    [.node .classDecl
      [.token (sign .kwClass), .leaf .identifier name,
        .node .classBody ([.token (sign .lbrace)] ++ members ++ [.token (sign .rbrace)])]]

end Sketch

namespace Form

variable {word : Prop} {P : List Sketch → Prop} {frame : List Sketch} {row row' : List Lexeme}
  {name : Lexeme} {inner rest : List Lexeme}

/-- There are no modifiers where none begins. -/
theorem turns_no_modifiers
    (hannotated : Skim.isAnnotationStart (kindAt row 0) (kindAt row 1) = false)
    (hmodifier : Skim.isModifier (kindAt row 0) (kindAt row 1) = false) :
    (Form.rule .modifiers).Turns frame row frame row := by
  refine .rule (.no ?_ .done)
  have hanswer : (Look.either .annotationStart .modifier).Answers frame row _ :=
    .either .annotationStart .modifier
  rwa [hannotated, hmodifier] at hanswer

theorem turns_no_dims (h : kindAt row 0 ≠ .lbracket) : (Form.rule .dims).Turns frame row frame row :=
  .rule (.no (.both_not_left (.next_not (by simpa using h))) .done)

theorem turns_void (h : kindAt row 0 ≠ .lbracket) :
    (Form.call .typeUse).Turns frame (sign .kwVoid :: row)
      (frame ++ [Sketch.node .typeUse [.token (sign .kwVoid)]]) row := by
  refine .call (.rule ?_) frame
  refine .node .typeUse (.seq (.rule (.optional_idle (by simp [sign]) _ _)) ?_)
  exact .yes (.next (by simp [sign])) (.seq (.token _) (turns_no_dims h))

theorem turns_no_parameters :
    (Form.call .parameters).Turns frame (sign .lparen :: sign .rparen :: row)
      (frame ++ [Sketch.node .parameters [.token (sign .lparen), .token (sign .rparen)]]) row := by
  refine .call (.rule ?_) frame
  refine .node .parameters ?_
  exact .seq (.seq (.expect rfl) (.rule (.yes (.next (by simp [sign])) .done))) (.expect rfl)

theorem turns_no_members (frame : List Sketch) (row : List Lexeme) :
    (Form.rule .members).Turns frame (sign .rbrace :: row) frame (sign .rbrace :: row) :=
  .rule (.yes (.next (by simp [sign])) .done)

section

-- what becomes of the statements between the braces of a method
variable (h : (Form.rule (.statements [.rbrace])).TurnsAround word P [.token (sign .lbrace)]
  (inner ++ sign .rbrace :: rest) (fun body => [Sketch.token (sign .lbrace)] ++ body)
  (sign .rbrace :: rest))

include h

theorem turnsAround_block :
    (Form.call .block).TurnsAround word P frame (sign .lbrace :: (inner ++ sign .rbrace :: rest))
      (fun body => frame ++
        [Sketch.node .block
          ([Sketch.token (sign .lbrace)] ++ body ++ [Sketch.token (sign .rbrace)])]) rest := by
  refine .call (.node .block (.seq_right (.seq_left (.expect rfl) h) (fun body _ => ?_) rfl)) frame
  exact Turns.around (.expect rfl) rfl

theorem turnsAround_methodRest :
    (Form.rule .methodRest).TurnsAround word P frame
      (sign .lparen :: sign .rparen :: sign .lbrace :: (inner ++ sign .rbrace :: rest))
      (fun body =>
        frame ++ [Sketch.node .parameters [.token (sign .lparen), .token (sign .rparen)]] ++
        [Sketch.node .block
          ([Sketch.token (sign .lbrace)] ++ body ++ [Sketch.token (sign .rbrace)])]) rest := by
  refine .rule ?_
  exact .seq_left (.seq (.seq (.seq turns_no_parameters (turns_no_dims (by simp [sign])))
    (.optional_idle (by simp [sign]) _ _)) (.optional_idle (by simp [sign]) _ _))
    (.yes (.next (by simp [sign])) (turnsAround_block h))

theorem turnsAround_method (hname : name.kind = .identifier) :
    (Form.call .member).TurnsAround word P frame (Lexeme.voidMethod name inner rest)
      (fun body => frame ++ [Sketch.voidMethod name body]) rest := by
  refine .call ?_ frame
  refine .no (.next_not (by simp [Lexeme.voidMethod, sign])) ?_
  refine .seq_left (turns_no_modifiers rfl rfl) ?_
  refine .no (.next_not (by simp [Lexeme.voidMethod, sign])) (.no .typeDecl ?_)
  refine .seq_left (.optional_idle (by simp [Lexeme.voidMethod, sign]) _ _) ?_
  have hvoid : TokenKind.kwVoid ∉ TokenKind.identifiers ∧ .kwVoid ∈ Grammar.memberType := by decide
  refine .no (.both_not_left (.next_not hvoid.1)) (.no (.both_not_left (.next_not hvoid.1)) ?_)
  refine .yes (.next hvoid.2) (.seq_left (turns_void (by simp [hname])) (.yes ?_ ?_))
  · exact .both (.next (by simp [hname, TokenKind.identifiers])) (.second (by simp [sign]))
  · exact .node .methodDecl (.seq_left (.take .identifier _) (turnsAround_methodRest h))

/-- A method, and the members behind it. -/
theorem turnsAround_members (hname : name.kind = .identifier) {out : List Sketch → List Sketch}
    (hmore : ∀ body, P body → (Form.rule .members).TurnsAround word (· = body)
      (frame ++ [Sketch.voidMethod name body]) rest out row') :
    (Form.rule .members).TurnsAround word P frame (Lexeme.voidMethod name inner rest) out row' := by
  refine .rule (.no (.next_not (by simp [Lexeme.voidMethod, sign])) ?_)
  refine .seq_right (.ifStuck (turnsAround_method h hname) (by simp [sign, Cursor.splittable]) ?_ rfl)
    hmore rfl
  intro hsame
  have hlength := congrArg List.length hsame
  simp only [List.length_cons, List.length_append] at hlength
  omega

end

/-- A class with the given members. -/
theorem turnsAround_classDecl {out : List Sketch → List Sketch} (hname : name.kind = .identifier)
    (h : (Form.rule .members).TurnsAround word P [.token (sign .lbrace)] inner
      (fun body => [Sketch.token (sign .lbrace)] ++ out body) (sign .rbrace :: rest)) :
    (Form.rule .typeDecl).TurnsAround word P [] (Lexeme.classHead name inner)
      (fun body => [.node .classDecl [.token (sign .kwClass), .leaf .identifier name,
        .node .classBody
          ([Sketch.token (sign .lbrace)] ++ out body ++ [Sketch.token (sign .rbrace)])]]) rest := by
  have hother : ∀ kind ∈ [TokenKind.kwInterface, .kwEnum, .kwRecord, .atSign], ∀ frame,
      (Look.next [kind]).Answers frame (Lexeme.classHead name inner) false := fun kind hkind _ =>
    .next_not (by revert kind; simp [Lexeme.classHead, sign])
  refine .rule (.no (hother _ (by simp) _) (.no (hother _ (by simp) _) (.no (hother _ (by simp) _)
    (.no (hother _ (by simp) _) ?_))))
  refine .node .classDecl (.seq_left (.seq (.seq (.seq (.seq (.seq .done (.token _))
    (.yes (.next ?_) (.take .identifier _))) (.optional_idle (by simp [sign]) _ _)) .done)
    (.rule (.yes (.next (by simp [sign])) .done))) (.call ?_ _))
  · simp [hname, TokenKind.identifiers]
  · refine .node .classBody (.yes (.next (by simp [sign])) (.seq_left (.token _) ?_))
    exact .seq_right (.seq_left .done h) (fun body _ => Turns.around (.expect rfl) rfl) rfl

theorem turnsAround_compilationUnit {out : List Sketch → List Sketch}
    (h : (Form.rule .typeDecl).TurnsAround word P [] (Lexeme.classHead name inner) out []) :
    (Form.rule .compilationUnit).TurnsAround word P [] (Lexeme.classHead name inner)
      (fun body => [.node .compilationUnit (out body)]) [] := by
  have hmore : (Look.next [.eof]).Answers [] (Lexeme.classHead name inner) false :=
    .next_not (by simp [Lexeme.classHead, sign])
  refine .rule (.node .compilationUnit (.rule (.no hmore ?_)))
  refine .seq_right (.ifStuck ?_ (by simp [sign, Cursor.splittable]) (by simp) rfl)
    (fun body _ => Turns.around (.rule (.yes (.next (by simp)) .done)) rfl) rfl
  have hother : ∀ kind ∈ [TokenKind.semicolon, .kwPackage, .kwImport],
      (Look.next [kind]).Answers [] (Lexeme.classHead name inner) false := fun kind hkind =>
    .next_not (by revert kind; simp [Lexeme.classHead, sign])
  refine .no (hother _ (by simp)) (.no (hother _ (by simp)) (.no (hother _ (by simp)) ?_))
  exact .within (.seq_left (turns_no_modifiers rfl rfl) (.yes .typeDecl h)) []

/-- A class with two methods. What is between the braces of the second is known. -/
theorem turnsAround_classFile {className first second : Lexeme}
    (hclass : className.kind = .identifier) (hfirst : first.kind = .identifier)
    (hsecond : second.kind = .identifier)
    (h : (Form.rule (.statements [.rbrace])).TurnsAround word P [.token (sign .lbrace)]
      (inner ++ sign .rbrace :: Lexeme.voidMethod second [] [sign .rbrace])
      (fun body => [Sketch.token (sign .lbrace)] ++ body)
      (sign .rbrace :: Lexeme.voidMethod second [] [sign .rbrace])) :
    (Form.rule .compilationUnit).TurnsAround word P []
      (Lexeme.classHead className
        (Lexeme.voidMethod first inner (Lexeme.voidMethod second [] [sign .rbrace])))
      (fun body => [.classFile className [.voidMethod first body, .voidMethod second []]]) [] := by
  have hnothing : (Form.rule (.statements [.rbrace])).TurnsAround word (· = [])
      [.token (sign .lbrace)] ([] ++ sign .rbrace :: [sign .rbrace])
      (fun body => [Sketch.token (sign .lbrace)] ++ body) (sign .rbrace :: [sign .rbrace]) :=
    Turns.around (.rule (.yes (.next (by simp [sign])) .done)) rfl
  have hlast : ∀ frame, (Form.rule .members).TurnsAround word (· = []) frame
      (Lexeme.voidMethod second [] [sign .rbrace])
      (fun body => frame ++ [Sketch.voidMethod second body])
      [sign .rbrace] := fun frame =>
    turnsAround_members hnothing hsecond fun body _ => Turns.around (turns_no_members _ _) rfl
  have hmembers : (Form.rule .members).TurnsAround word P [.token (sign .lbrace)]
      (Lexeme.voidMethod first inner (Lexeme.voidMethod second [] [sign .rbrace]))
      (fun body => [Sketch.token (sign .lbrace)] ++
        [Sketch.voidMethod first body, .voidMethod second []])
      [sign .rbrace] := turnsAround_members h hfirst fun body _ => (hlast _).fix rfl
  exact turnsAround_compilationUnit (turnsAround_classDecl hclass hmembers)

end Form

end DotCompletion
