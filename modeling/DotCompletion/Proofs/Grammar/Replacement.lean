import DotCompletion.Proofs.Grammar.LastOperand

/-!
# How expressions are traced

Every rule for plain expressions either stays in front of the last operand or
passes it. The statement is about a source that ends in a name and a semicolon;
what is found for it holds for every other ending (`Rule.Reads.traces`).
-/

namespace DotCompletion

open Skim Grammar Form

namespace Rule

/-- The rule reads an operand into an empty frame. -/
def isOperand : Rule → Bool
  | expression | ternary | binary _ | unary => true
  | _ => false

/-- The rule works on the frame: it begins an operand, or continues one. -/
def Fits (r : Rule) (frame : Frame) : Prop :=
  (r.isOperand = true ∧ frame = []) ∨ ∃ least, r = operators least

theorem Fits.frame_eq {r : Rule} {frame : Frame} (h : r.Fits frame) (hr : r.isOperand = true) :
    frame = [] := by
  rcases h with ⟨_, hframe⟩ | ⟨_, rfl⟩
  · exact hframe
  · cases hr

/-- Ahead of a name and a semicolon, the rule stays in front of them. -/
def StaysWithin (r : Rule) (frame : Frame) (ts : List Token) (frame' : Frame) : Prop :=
  ∃ used ahead, ts = used ++ ahead ∧ ahead ≠ [] ∧ (r.isOperand = true → used ≠ []) ∧
    (Form.rule r).Stays frame used ahead frame'

/-- A rule that leaves a plain frame in front of a token that can follow either
stays in front of the last operand or passes it. -/
def Traces (y semi : Token) : Behaviour := fun r frame c frame' c' =>
  r.Fits frame → ∀ ts, c.rest = ts ++ [y, semi] → frame'.Plain → kindAt c'.rest 0 ∈ follow →
    r.StaysWithin frame ts frame' ∨ ∃ layers, (Form.rule r).Passes frame ts [] layers

end Rule

/-- A name and a semicolon. -/
structure Closing (y semi : Token) : Prop where
  name : y.kind = .identifier
  close : semi.kind = .semicolon

namespace Closing

variable {y semi : Token}

theorem not_follow (h : Closing y semi) : kindAt [y, semi] 0 ∉ follow := by
  rw [show kindAt [y, semi] 0 = y.kind from rfl, h.name]
  decide

theorem endsWith (h : Closing y semi) : EndsWith [y, semi] (.operand y) [semi] where
  first := by
    rw [show kindAt [y, semi] 0 = y.kind from rfl, h.name]
    decide
  second := by
    rw [show kindAt [y, semi] 1 = semi.kind from rfl, h.close]
    decide
  behind := by
    rw [show kindAt [semi] 0 = semi.kind from rfl, h.close]
    decide
  reads := by
    intro c hrest
    refine ⟨c.advance, Rule.Reads.unary_operand hrest ?_ ?_, Cursor.rest_advance hrest⟩
    · rw [h.name]
      decide
    · rw [show kindAt [semi] 0 = semi.kind from rfl, h.close]
      decide

variable {r : Rule} {frame frame' middle front : Frame} {c c' : Cursor}
  {used ahead ts : List Token} {layers : List Layer}

theorem rest_of_stays (h : Closing y semi) (hreads : r.Reads frame c frame' c')
    (hstays : (Form.rule r).Stays frame used ahead middle)
    (hrest : c.rest = (used ++ ahead) ++ [y, semi]) : c'.rest = ahead ++ [y, semi] := by
  obtain ⟨d, hdoes, hd⟩ :=
    hstays.reads [y, semi] h.endsWith.toEnding c (by rw [hrest, List.append_assoc])
  rw [(hreads.unique hdoes).2, hd]

theorem of_passes (h : Closing y semi) (hreads : r.Reads frame c frame' c')
    (hpasses : (Form.rule r).Passes frame ts front layers) (hrest : c.rest = ts ++ [y, semi]) :
    frame' = front ++ [(Node.operand y).wrapped layers] ∧ c'.rest = [semi] := by
  obtain ⟨d, hdoes, hd⟩ := hpasses.reads [y, semi] _ _ h.endsWith c hrest
  obtain ⟨hframe, hc⟩ := hreads.unique hdoes
  exact ⟨hframe, by rw [hc, hd]⟩

end Closing

section

variable {y semi : Token} {frame frame' : Frame}

/-- Where no lambda is ahead, none is ahead of another ending either. -/
theorem Ahead.not_lambda_of_ending {ts us : List Token} (hus : Ending us)
    (hlambda : Ahead.lambda.holds (ts ++ [y, semi]) = false)
    (hfirst : ∀ t ∈ ts.head?, t.kind ∈ plainKinds) : Ahead.lambda.holds (ts ++ us) = false := by
  have hplain : ∀ k ∈ plainKinds, k ≠ .lparen := by decide
  have hends : ∀ k ∈ [TokenKind.identifier, .floatLiteral], k ≠ .lparen ∧ k ≠ .arrow := by decide
  obtain ⟨hparen, harrow⟩ := hends _ hus.first
  match ts, hlambda, hfirst with
  | [], _, _ => simp [Ahead.holds, hparen, hus.second]
  | [t], _, hfirst =>
      have hnot : kindAt (t :: us) 0 ≠ .lparen := hplain _ (hfirst t rfl)
      have hsecond : kindAt (t :: us) 1 ≠ .arrow := by simpa [kindAt] using harrow
      simp [Ahead.holds, hnot, hsecond]
  | t :: u :: ts, hlambda, hfirst =>
      have hnot : t.kind ≠ .lparen := hplain _ (hfirst t rfl)
      simpa [Ahead.holds, kindAt, hnot] using hlambda

namespace Form

theorem Stays.of_not_lambda {ts used ahead : List Token} {no : Form}
    (h : no.Stays frame used ahead frame') (yes : Form) (hts : ts = used ++ ahead)
    (hused : used ≠ []) (hlambda : Ahead.lambda.holds (ts ++ [y, semi]) = false) :
    (Form.choose (.ahead .lambda) yes no).Stays frame used ahead frame' := by
  obtain ⟨t, used, rfl⟩ := List.exists_cons_of_ne_nil hused
  subst hts
  refine h.imp fun us hus c _ _ hrest hdoes => .inr ⟨?_, hdoes⟩
  rw [Look.holds, hrest, ← List.append_assoc]
  refine Ahead.not_lambda_of_ending hus hlambda ?_
  rintro _ ⟨⟩
  exact h.plain t List.mem_cons_self

theorem Passes.of_not_lambda {ts : List Token} {front : Frame} {layers : List Layer}
    {no : Form} (h : no.Passes frame ts front layers) (yes : Form)
    (hlambda : Ahead.lambda.holds (ts ++ [y, semi]) = false) :
    (Form.choose (.ahead .lambda) yes no).Passes frame ts front layers := by
  refine h.imp fun us hus c _ _ hrest hdoes => .inr ⟨?_, hdoes⟩
  rw [Look.holds, hrest]
  exact Ahead.not_lambda_of_ending hus hlambda fun t ht => h.leads.plain t (List.mem_of_mem_head? ht)

/-- A condition up to the colon, behind its first operand. -/
theorem Stays.condition {r : Rule} {t t' : Token} {used ahead : List Token} {yes : Frame}
    (ht : t.kind = .question) (ht' : t'.kind = .colon)
    (h : (Form.rule r).Stays [] used (t' :: ahead) yes) (frame : Frame) :
    (Form.token ++ call r ++ expect .colon).Stays frame (t :: (used ++ [t'])) ahead
      (frame ++ [Node.leaf .token t] ++ yes ++ [Node.leaf .token t']) := by
  have hkinds : ∀ k ∈ [TokenKind.question, .colon], k ∈ plainKinds := by decide
  have hquestion := Stays.token frame (hkinds t.kind (by simp [ht])) (used ++ t' :: ahead)
  have hcolon := Stays.token (frame ++ [Node.leaf .token t] ++ yes)
    (hkinds t'.kind (by simp [ht'])) ahead
  have hexpect : (expect .colon).Stays (frame ++ [Node.leaf .token t] ++ yes) [t'] ahead
      (frame ++ [Node.leaf .token t] ++ yes ++ [Node.leaf .token t']) :=
    hcolon.imp fun _ _ c _ _ hc hdoes => .inl ⟨by simp [Look.holds, hc, kindAt, ht'], hdoes⟩
  exact (hquestion.seq (h.within _)).seq hexpect

theorem Passes.condition {r : Rule} {t t' : Token} {used ahead : List Token} {yes : Frame}
    {g : Form} {layers : List Layer} (ht : t.kind = .question) (ht' : t'.kind = .colon)
    (h : (Form.rule r).Stays [] used (t' :: ahead) yes)
    (hg : ∀ frame, g.Passes frame ahead frame layers) (frame : Frame) :
    (Form.node .ternaryExpr (Form.token ++ call r ++ expect .colon ++ g)).Passes frame
      (t :: (used ++ [t'] ++ ahead)) []
      (⟨.ternaryExpr, t.span.start, frame ++ [Node.leaf .token t] ++ yes ++ [Node.leaf .token t'],
        by decide, by simp⟩ :: layers) := by
  have hsigns : ∀ k ∈ [TokenKind.question, .colon], k ∈ plainSigns := by decide
  have hleads : LeadsUp (t :: (used ++ [t'] ++ ahead)) := by
    rw [List.append_assoc]
    have hcolon := (hg []).leads.cons (hsigns t'.kind (by simp [ht']))
    exact (hcolon.append h.plain (List.cons_ne_nil _ _)).cons (hsigns t.kind (by simp [ht]))
  exact ((h.condition ht ht' frame).seq_passes (hg _) hleads).node _ _

end Form

end

namespace Rule

variable {y semi : Token} {frame frame' : Frame} {c c' : Cursor}

/-- A run whose rules are traced. -/
def Traced (y semi : Token) : Behaviour := fun r frame c frame' c' =>
  r.Reads frame c frame' c' ∧ Traces y semi r frame c frame' c'

theorem unary_traces (h : Closing y semi)
    (hform : unary.form.Does (Traced y semi) frame c frame' c') :
    Traces y semi unary frame c frame' c' := by
  intro hfits ts hrest hplain hfollow
  obtain rfl := hfits.frame_eq rfl
  cases ts with
  | nil => exact .inr ⟨[], ⟨.nil, fun us x rest hus c hrest => hus.reads c hrest⟩⟩
  | cons t ts =>
      have hnext := Cursor.next_eq hrest
      rcases hform with ⟨hlook, _, ⟨_, _, ⟨rfl, rfl⟩, nodes, hunary, rfl⟩, rfl⟩ |
        ⟨_, ⟨_, hcast⟩ | ⟨_, middle, between, hprimary, hsuffixes⟩⟩
      · -- a prefix operator, and what it is applied to
        rw [Look.holds_next, hrest] at hlook
        have ht : t.kind ∈ unaryOperators := List.contains_iff_mem.mp hlook
        have hsign : t.kind ∈ plainSigns := by simp [plainSigns, ht]
        have hyes : ∀ (c : Cursor) frame' c' (tail : List Token), c.rest = t :: tail →
            (node .unaryExpr (token ++ call .unary)).Does Reads [] c frame' c' →
            unary.form.Does Reads [] c frame' c' :=
          fun c _ _ tail hc hdoes => .inl ⟨by rw [Look.holds_next, hc]; exact hlook, hdoes⟩
        rcases hunary.2 (.inl ⟨rfl, rfl⟩) ts (Cursor.rest_advance hrest) hplain.children.right
          hfollow with ⟨used, ahead, rfl, hahead, _, hstays⟩ | ⟨layers, hpasses⟩
        · refine .inl ⟨t :: used, ahead, rfl, hahead, fun _ => List.cons_ne_nil _ _, ?_⟩
          rw [hnext]
          exact ((hstays.operation .unaryExpr hsign []).imp fun _ _ c _ _ hc =>
            hyes c _ _ _ hc).rule
        · refine .inr ⟨_, ((hpasses.operation ?_ hsign []).imp fun _ _ c _ _ hc =>
            hyes c _ _ _ hc).rule⟩
          decide
      · exact absurd hplain (not_plain_of_node (fun _ _ _ => rfl) hcast)
      · -- an operand alone, in front of a token that does not continue it
        obtain ⟨rfl, rfl⟩ := hsuffixes.1.suffixes_eq hplain
        have hkind := hprimary.1.primary_plain hplain hrest
        have ht : t.kind ∈ literals ++ TokenKind.identifiers := by
          rcases List.mem_cons.mp hkind with hint | hname
          · rw [hint]
            decide
          · exact List.mem_append_right _ hname
        obtain ⟨rfl, rfl⟩ := hprimary.1.unique (Reads.primary_operand hrest ht)
        rw [Cursor.rest_advance hrest] at hfollow
        have hts : ts ≠ [] := by
          rintro rfl
          exact h.not_follow hfollow
        obtain ⟨u, ts, rfl⟩ := List.exists_cons_of_ne_nil hts
        have hsuffix : ∀ k ∈ follow, k ∉ suffixSigns := by decide
        refine .inl ⟨[t], u :: ts, rfl, hts, fun _ => List.cons_ne_nil _ _, ?_, ?_⟩
        · intro v hv
          rw [List.mem_singleton.mp hv]
          exact List.mem_append_left _ hkind
        · intro us _ d hd
          exact ⟨d.advance, Reads.unary_operand hd ht (hsuffix _ hfollow), Cursor.rest_advance hd⟩

theorem operators_traces (h : Closing y semi) {least : Nat}
    (hform : (operators least).form.Does (Traced y semi) frame c frame' c') :
    Traces y semi (operators least) frame c frame' c' := by
  intro _ ts hrest hplain hfollow
  have hreads : (operators least).Reads frame c frame' c' :=
    Reads.intro (hform.mono fun _ _ _ _ _ => And.left)
  have hkind : kindAt c.rest 0 ≠ .kwInstanceof := by
    intro hkind
    rcases (hreads.operators_plain hplain).2 with ⟨_, rfl⟩ | hsign
    · rw [hkind] at hfollow
      exact absurd hfollow (by decide)
    · rw [hkind] at hsign
      exact absurd hsign (by decide)
  obtain ⟨f, ⟨rfl, _⟩ | ⟨hsign, _, rfl⟩, hiff⟩ := operators_cases least hkind
  · obtain ⟨rfl, rfl⟩ := (hiff _ _ _ _ _ rfl).mp hform
    cases ts with
    | nil =>
        rw [hrest] at hfollow
        exact absurd hfollow h.not_follow
    | cons t ts =>
        refine .inl ⟨[], t :: ts, rfl, List.cons_ne_nil _ _, (fun hoperand => nomatch hoperand),
          ((Stays.done _ _).imp ?_).rule⟩
        intro us _ d _ _ hd hdoes
        exact (hiff _ _ _ _ _ (by rw [hd, hrest]; rfl)).mpr hdoes
  · obtain ⟨_, between, ⟨_, ⟨_, _, ⟨rfl, rfl⟩, nodes, hbinary, rfl⟩, rfl⟩, hmore⟩ :=
      (hiff _ _ _ _ _ rfl).mp hform
    obtain ⟨hmiddle, hidle⟩ := hmore.1.operators_plain hplain
    have hbetween : kindAt between.rest 0 ∈ follow := by
      rcases hidle with ⟨_, rfl⟩ | hsign
      · exact hfollow
      · exact List.mem_append_left _ (List.mem_append_left _ hsign)
    cases ts with
    | nil =>
        rw [hrest, show kindAt ([] ++ [y, semi]) 0 = y.kind from rfl, h.name] at hsign
        exact absurd hsign (by decide)
    | cons t ts =>
        have hnext := Cursor.next_eq hrest
        rw [hnext] at hmore
        have ht : t.kind ∈ plainSigns := by
          rw [hrest] at hsign
          simp only [plainSigns, List.mem_append]
          exact .inl (.inl (.inr hsign))
        have hstep : ∀ (d : Cursor) frame' d' (tail : List Token), d.rest = t :: tail →
            (binaryStep least (levelOf (kindAt c.rest 0))).Does Reads frame d frame' d' →
            (operators least).form.Does Reads frame d frame' d' :=
          fun d _ _ tail hd => (hiff _ _ d _ _ (by rw [hd, hrest]; rfl)).mpr
        rcases hbinary.2 (.inl ⟨rfl, rfl⟩) ts (Cursor.rest_advance hrest) hmiddle.children.right
          hbetween with ⟨used, ahead, rfl, hahead, _, hstays⟩ | ⟨layers, hpasses⟩
        · have hrest' := h.rest_of_stays hbinary.1 hstays (Cursor.rest_advance hrest)
          have hfirst := hstays.operation .binaryExpr ht frame
          rcases hmore.2 (.inr ⟨least, rfl⟩) ahead hrest' hplain hfollow with
            ⟨used', ahead', rfl, hahead', _, hstays'⟩ | ⟨layers, hpasses⟩
          · refine .inl ⟨t :: used ++ used', ahead', by simp, hahead', fun _ => by simp,
              ((hfirst.seq hstays').imp fun _ _ d _ _ hd => hstep d _ _ _ hd).rule⟩
          · have hleads := LeadsUp.append hfirst.plain hahead hpasses.leads
            exact .inr ⟨layers, ((hfirst.seq_passes hpasses hleads).imp fun _ _ d _ _ hd =>
              hstep d _ _ _ hd).rule⟩
        · refine .inr ⟨_, (((hpasses.operation ?_ ht frame).seq_idle
            (operators_idles least)).imp fun _ _ d _ _ hd => hstep d _ _ _ hd).rule⟩
          decide

theorem binary_traces (h : Closing y semi) {least : Nat}
    (hform : (binary least).form.Does (Traced y semi) frame c frame' c') :
    Traces y semi (binary least) frame c frame' c' := by
  intro hfits ts hrest hplain hfollow
  obtain rfl := hfits.frame_eq rfl
  obtain ⟨middle, between, hunary, hmore⟩ := hform
  obtain ⟨hmiddle, hidle⟩ := hmore.1.operators_plain hplain
  have hbetween : kindAt between.rest 0 ∈ follow := by
    rcases hidle with ⟨_, rfl⟩ | hsign
    · exact hfollow
    · exact List.mem_append_left _ (List.mem_append_left _ hsign)
  rcases hunary.2 (.inl ⟨rfl, rfl⟩) ts hrest hmiddle hbetween with
    ⟨used, ahead, rfl, hahead, hused, hstays⟩ | ⟨layers, hpasses⟩
  · have hrest' := h.rest_of_stays hunary.1 hstays hrest
    rcases hmore.2 (.inr ⟨least, rfl⟩) ahead hrest' hplain hfollow with
      ⟨used', ahead', rfl, hahead', _, hstays'⟩ | ⟨layers, hpasses⟩
    · refine .inl ⟨used ++ used', ahead', by simp, hahead', fun _ => ?_, .rule (hstays.seq hstays')⟩
      simp [hused rfl]
    · exact .inr ⟨layers, .rule (hstays.seq_passes hpasses
        (.append hstays.plain hahead hpasses.leads))⟩
  · exact .inr ⟨layers, .rule (hpasses.seq_idle (operators_idles least))⟩

/-- The operand is followed by a sign, which stands in front of the last operand. -/
theorem Traced.stays_of_sign (h : Closing y semi) {r : Rule} (hr : r.isOperand = true)
    (htraced : Traced y semi r [] c frame' c') {ts : List Token} (hrest : c.rest = ts ++ [y, semi])
    (hplain : frame'.Plain) (hsign : kindAt c'.rest 0 ∈ follow)
    (hsemi : kindAt c'.rest 0 ≠ .semicolon) :
    ∃ used t ahead, ts = used ++ t :: ahead ∧ used ≠ [] ∧
      (Form.rule r).Stays [] used (t :: ahead) frame' ∧ c'.rest = t :: (ahead ++ [y, semi]) := by
  rcases htraced.2 (.inl ⟨hr, rfl⟩) ts hrest hplain hsign with
    ⟨used, ahead, rfl, hahead, hused, hstays⟩ | ⟨layers, hpasses⟩
  · obtain ⟨t, ahead, rfl⟩ := List.exists_cons_of_ne_nil hahead
    exact ⟨used, t, ahead, rfl, hused hr, hstays, h.rest_of_stays htraced.1 hstays hrest⟩
  · refine absurd ?_ hsemi
    rw [(h.of_passes htraced.1 hpasses hrest).2]
    exact h.close

/-- Nothing follows the operand that the optional form reads. -/
theorem Traced.optional_idle (h : Closing y semi) {r : Rule} (hr : r.isOperand = true)
    (htraced : Traced y semi r [] c frame' c') {ts : List Token} (hrest : c.rest = ts ++ [y, semi])
    (hplain : frame'.Plain) (hfollow : kindAt c'.rest 0 ∈ follow) {kinds : List TokenKind}
    (hkinds : ∀ k ∈ [TokenKind.semicolon, .identifier], k ∉ kinds)
    (hnext : kindAt c'.rest 0 ∉ kinds) (f : Form) :
    (∃ used ahead, ts = used ++ ahead ∧ ahead ≠ [] ∧ used ≠ [] ∧
        (Form.rule r ++ optional kinds f).Stays [] used ahead frame') ∨
      ∃ layers, (Form.rule r ++ optional kinds f).Passes [] ts [] layers := by
  rcases htraced.2 (.inl ⟨hr, rfl⟩) ts hrest hplain hfollow with
    ⟨used, ahead, rfl, hahead, hused, hstays⟩ | ⟨layers, hpasses⟩
  · obtain ⟨t, ahead, rfl⟩ := List.exists_cons_of_ne_nil hahead
    rw [h.rest_of_stays htraced.1 hstays hrest] at hnext
    have hidle : (Form.optional kinds f).Stays frame' [] (t :: ahead) frame' :=
      .optional_idle hnext f frame'
    have hboth := hstays.seq hidle
    rw [List.append_nil] at hboth
    exact .inl ⟨used, t :: ahead, rfl, hahead, hused hr, hboth⟩
  · exact .inr ⟨layers, hpasses.seq_idle (optional_idles hkinds f)⟩

theorem ternary_traces (h : Closing y semi)
    (hform : ternary.form.Does (Traced y semi) frame c frame' c') :
    Traces y semi ternary frame c frame' c' := by
  intro hfits ts hrest hplain hfollow
  obtain rfl := hfits.frame_eq rfl
  obtain ⟨middle, between, hcondition, hmore⟩ := hform
  rcases hmore with ⟨hquestion, children, hbody, rfl⟩ | ⟨hquestion, rfl, rfl⟩
  · obtain ⟨_, third, ⟨_, second, ⟨_, _, ⟨rfl, rfl⟩, yes, hyes, rfl⟩, hcolon⟩, hno⟩ := hbody
    have hchildren : Frame.Plain children := hplain.children
    have hkinds : ∀ k ∈ [TokenKind.question, .colon],
        k ∈ follow ∧ k ≠ .semicolon ∧ k ∈ plainSigns := by decide
    rcases hno with ⟨_, nodes, hlambda, rfl⟩ | ⟨hlambda, nodes, hno, rfl⟩
    case inl => exact absurd hchildren.right (not_plain_of_node (fun _ _ _ => rfl) hlambda.1.elim)
    rcases hcolon with ⟨hcolon, rfl, rfl⟩ | ⟨_, rfl, _⟩
    case inr =>
      have hmissing := hchildren.left.right.single
      simp [Node.isPlain, Node.missing] at hmissing
    rw [Look.holds_next, List.contains_iff_mem, List.mem_singleton] at hquestion hcolon
    obtain ⟨used, t, ahead, rfl, hused, hstays, hbetween⟩ := hcondition.stays_of_sign h rfl hrest
      hchildren.left.left.left.left (by simp [hquestion, hkinds]) (by simp [hquestion])
    obtain ⟨used', t', ahead', rfl, -, hstays', hsecond⟩ := Traced.stays_of_sign h rfl hyes
      (Cursor.rest_advance hbetween) hchildren.left.left.right (by simp [hcolon, hkinds])
      (by simp [hcolon])
    have ht : t.kind = .question := by rwa [hbetween] at hquestion
    have ht' : t'.kind = .colon := by rwa [hsecond] at hcolon
    rw [Look.holds, Cursor.rest_advance hsecond] at hlambda
    rw [Cursor.next_eq hbetween, Cursor.next_eq hsecond]
    have hhead := hstays'.condition ht ht' middle
    rcases hno.2 (.inl ⟨rfl, rfl⟩) ahead' (Cursor.rest_advance hsecond) hchildren.right hfollow with
      ⟨used'', ahead, rfl, hahead, hused'', hstays''⟩ | ⟨layers, hpasses⟩
    · have hlast := (hstays''.within (middle ++ [Node.leaf .token t] ++ yes ++ [Node.leaf .token t'])
        ).of_not_lambda (call .lambda) rfl (hused'' rfl) hlambda
      have hnode := (hhead.seq hlast).node .ternaryExpr
      refine .inl ⟨used ++ (t :: (used' ++ [t'] ++ used'')), ahead, by simp, hahead,
        fun _ => by simp, .rule (.seq ?_ (hnode.optional (by simp [ht])))⟩
      simpa using hstays
    · have hnode := Passes.condition ht ht' hstays'
        (fun frame => (hpasses.within frame).of_not_lambda (call .lambda) hlambda) middle
      have hmore := hnode.optional (show t.kind ∈ [TokenKind.question] by simp [ht])
      have hts : t :: (used' ++ [t'] ++ ahead') = t :: (used' ++ t' :: ahead') := by simp
      rw [hts] at hmore
      exact .inr ⟨_, .rule (hstays.seq_passes hmore (hmore.leads.append hstays.plain
        (List.cons_ne_nil _ _)))⟩
  · have hnext : kindAt c'.rest 0 ∉ [TokenKind.question] := by
      simpa [Look.holds] using hquestion
    rcases hcondition.optional_idle h rfl hrest hplain hfollow (by decide) hnext _ with
      ⟨used, ahead, hts, hahead, hused, hstays⟩ | ⟨layers, hpasses⟩
    · exact .inl ⟨used, ahead, hts, hahead, fun _ => hused, .rule hstays⟩
    · exact .inr ⟨layers, .rule hpasses⟩

theorem expression_traces (h : Closing y semi)
    (hform : expression.form.Does (Traced y semi) frame c frame' c') :
    Traces y semi expression frame c frame' c' := by
  intro hfits ts hrest hplain hfollow
  obtain rfl := hfits.frame_eq rfl
  rcases hform with ⟨_, hlambda⟩ | ⟨hlambda, middle, between, htarget, hmore⟩
  case inl => exact absurd hplain (not_plain_of_node (fun _ _ _ => rfl) hlambda.1.elim)
  rw [Look.holds, hrest] at hlambda
  rcases hmore with ⟨hsign, _, ⟨_, _, ⟨rfl, rfl⟩, value, hvalue, rfl⟩, rfl⟩ | ⟨hsign, rfl, rfl⟩
  · have hkinds : ∀ k ∈ assignments, k ∈ follow ∧ k ≠ .semicolon ∧ k ∈ plainSigns := by decide
    rw [Look.holds_next, List.contains_iff_mem] at hsign
    obtain ⟨used, t, ahead, rfl, hused, hstays, hbetween⟩ := htarget.stays_of_sign h rfl hrest
      hplain.children.left.left (hkinds _ hsign).1 (hkinds _ hsign).2.1
    have ht : t.kind ∈ assignments := by rwa [hbetween] at hsign
    rw [Cursor.next_eq hbetween]
    rcases hvalue.2 (.inl ⟨rfl, rfl⟩) ahead (Cursor.rest_advance hbetween) hplain.children.right
      hfollow with ⟨used', ahead, rfl, hahead, -, hstays'⟩ | ⟨layers, hpasses⟩
    · have hnode := (hstays'.operation .assignExpr (hkinds _ ht).2.2 middle).optional ht
      have htarget : (Form.rule ternary).Stays [] used (t :: used' ++ ahead) middle := by
        simpa using hstays
      refine .inl ⟨used ++ t :: used', ahead, by simp, hahead, fun _ => by simp, .rule ?_⟩
      exact (htarget.seq hnode).of_not_lambda _ (by simp) (by simp) hlambda
    · have hnode := (Passes.operation (show NodeKind.assignExpr ∈ _ by decide) (hkinds _ ht).2.2
        hpasses middle).optional ht
      exact .inr ⟨_, .rule ((hstays.seq_passes hnode (hnode.leads.append hstays.plain
        (List.cons_ne_nil _ _))).of_not_lambda _ hlambda)⟩
  · have hnext : kindAt c'.rest 0 ∉ assignments := by
      simpa [Look.holds] using hsign
    rcases htarget.optional_idle h rfl hrest hplain hfollow (by decide) hnext _ with
      ⟨used, ahead, rfl, hahead, hused, hstays⟩ | ⟨layers, hpasses⟩
    · exact .inl ⟨used, ahead, rfl, hahead, fun _ => hused,
        .rule (hstays.of_not_lambda _ rfl hused hlambda)⟩
    · exact .inr ⟨layers, .rule (hpasses.of_not_lambda _ hlambda)⟩

theorem Reads.traces (h : Closing y semi) {r : Rule} (hreads : r.Reads frame c frame' c') :
    Traces y semi r frame c frame' c' := by
  refine hreads.induct_reads (fun r frame c frame' c' => Traces y semi r frame c frame' c') ?_
  intro r frame c frame' c' hform
  cases r with
  | expression => exact expression_traces h hform
  | ternary => exact ternary_traces h hform
  | binary => exact binary_traces h hform
  | operators => exact operators_traces h hform
  | unary => exact unary_traces h hform
  | _ =>
      rintro (⟨hoperand, _⟩ | ⟨_, hoperators⟩)
      · cases hoperand
      · cases hoperators

end Rule

end DotCompletion
