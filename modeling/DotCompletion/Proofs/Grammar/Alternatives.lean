import Mathlib.Data.List.Basic
import DotCompletion.Proofs.Grammar.Replacement

/-!
# Which statements are expressions

A statement is an expression where no other sort of statement is found ahead. Most sorts
are found by their first token; a declaration by skimming over the name of a type. Where a
source ends in a name and a semicolon and is an expression, it is one with every other
ending in front of which no declaration begins (`StartsExpression.of_ending`).
-/

namespace DotCompletion

open Skim Grammar

namespace Form

/-- If the form leaves a single node, this is no expression statement, by the looks of
the form. -/
def isOther : Form → Bool
  | missing _ => true
  | seq _ second => second.isOther
  | choose _ yes no => yes.isOther && no.isOther
  | enclose label _ | within (enclose label _) => label.kind != .exprStmt
  | rule .block | rule (.localVarDecl _) => true
  | rule (.switch kind) => kind != .exprStmt
  | _ => false

/-- The conditions for the alternatives of a form that are no expression statements, and
what is left where none of them holds. -/
def alternatives : Form → List Look × Form
  | choose look yes no =>
    if yes.isOther then (look :: no.alternatives.1, no.alternatives.2)
    else ([], choose look yes no)
  | f => ([], f)

variable {f : Form} {goto : Behaviour} {frame frame' : Frame} {c c' : Cursor} {n : Node}

theorem Does.ne_exprStmt_of_enclose {label : Label} {body : Form}
    (h : (enclose label body).Does goto frame c [n] c') (hkind : (label.kind != .exprStmt) = true) :
    n.kind ≠ .exprStmt := by
  obtain ⟨children, _, hn⟩ := h
  obtain rfl := List.singleton_inj.mp hn
  exact bne_iff_ne.mp hkind

theorem Does.ne_exprStmt (h : f.Does Rule.Reads frame c [n] c') (hf : f.isOther = true) :
    n.kind ≠ .exprStmt := by
  induction f generalizing frame c c' with
  | missing problem =>
      obtain ⟨_, hn⟩ := List.append_inj' (show [] ++ [n] = frame ++ [_] from h.1) rfl
      obtain rfl := List.singleton_inj.mp hn
      exact nofun
  | seq first second _ ihsecond =>
      obtain ⟨_, _, _, hsecond⟩ := h
      exact ihsecond hsecond hf
  | choose look yes no ihyes ihno =>
      obtain ⟨hyes, hno⟩ := Bool.and_eq_true_iff.mp hf
      rcases h with ⟨_, h⟩ | ⟨_, h⟩
      · exact ihyes h hyes
      · exact ihno h hno
  | enclose label body => exact h.ne_exprStmt_of_enclose hf
  | within body =>
      obtain ⟨nodes, hbody, hn⟩ := h
      cases body with
      | enclose label body =>
          obtain ⟨children, hchildren, rfl⟩ := hbody
          obtain ⟨_, hn⟩ := List.append_inj' (show [] ++ [n] = frame ++ [_] from hn) rfl
          obtain rfl := List.singleton_inj.mp hn
          exact bne_iff_ne.mp hf
      | _ => cases hf
  | rule name =>
      cases name with
      | block | localVarDecl => exact Does.ne_exprStmt_of_enclose h.elim rfl
      | switch kind => exact Does.ne_exprStmt_of_enclose h.elim hf
      | _ => cases hf
  | _ => cases hf

theorem does_alternatives (hnone : ∀ look ∈ f.alternatives.1, look.holds frame c.rest = false) :
    f.Does goto frame c frame' c' ↔ f.alternatives.2.Does goto frame c frame' c' := by
  induction f with
  | choose look yes no _ ihno =>
      unfold alternatives at hnone ⊢
      split
      next hyes =>
          rw [if_pos hyes] at hnone
          obtain ⟨hlook, hmore⟩ := List.forall_mem_cons.mp hnone
          rw [← ihno hmore]
          simp [Does, hlook]
      next => rfl
  | _ => rfl

/-- An expression statement is made where no other alternative is chosen. -/
theorem Does.of_exprStmt (h : f.Does Rule.Reads frame c [n] c') (hn : n.kind = .exprStmt) :
    (∀ look ∈ f.alternatives.1, look.holds frame c.rest = false) ∧
      f.alternatives.2.Does Rule.Reads frame c [n] c' := by
  suffices hnone : ∀ look ∈ f.alternatives.1, look.holds frame c.rest = false from
    ⟨hnone, (does_alternatives hnone).mp h⟩
  induction f with
  | choose look yes no _ ihno =>
      unfold alternatives
      split
      next hyes =>
          rcases h with ⟨_, h⟩ | ⟨hlook, h⟩
          · exact absurd hn (h.ne_exprStmt hyes)
          · exact List.forall_mem_cons.mpr ⟨hlook, ihno h⟩
      next => exact nofun
  | _ => exact nofun

end Form

namespace Grammar

/-- The tokens with which only statements of other sorts begin. -/
def statementStarts : List (List TokenKind) :=
  [[.lbrace], [.semicolon], [.kwIf], [.kwFor], [.kwWhile], [.kwDo], [.kwSwitch], [.kwReturn],
   [.kwThrow], [.kwBreak], [.kwContinue], [.kwTry], [.kwAssert]]

/-- The conditions for the sorts of statements that are no expression statements. -/
def otherStatements : List Look :=
  statementStarts.map .next ++
  [.both (.next [.kwSynchronized]) (.second [.lparen]),
   .both (.next [.kwYield]) (.isNot (.second afterYieldName)), .next [.rbrace],
   .next [.rparen, .rbracket], nameBefore .colon, .ahead .localClass, .ahead .localVariable]

/-- The conditions are those of the grammar, and an expression statement is what is left. -/
theorem statement_alternatives :
    Rule.statement.form.alternatives = (otherStatements, .rule .exprStmt) := rfl

end Grammar

/-- A statement that begins with these tokens is an expression. -/
def StartsExpression (tokens : List Token) : Prop :=
  ∀ look ∈ otherStatements, look.holds [] tokens = false

namespace Rule.Reads

variable {c c' : Cursor} {frame' : Frame} {n : Node}

theorem statement (h : StartsExpression c.rest) (hreads : exprStmt.Reads [] c frame' c') :
    Rule.statement.Reads [] c frame' c' := by
  have hnone : ∀ look ∈ Rule.statement.form.alternatives.1, look.holds [] c.rest = false := by
    rw [Grammar.statement_alternatives]
    exact h
  refine intro ((Form.does_alternatives hnone).mpr ?_)
  rw [Grammar.statement_alternatives]
  exact hreads

theorem startsExpression (h : Rule.statement.Reads [] c [n] c') (hn : n.kind = .exprStmt) :
    StartsExpression c.rest ∧ exprStmt.Reads [] c [n] c' :=
  h.elim.of_exprStmt hn

end Rule.Reads

/-! ## Declarations -/

namespace Skim

theorem kindAt_cons_zero (t : Token) (rest : List Token) : kindAt (t :: rest) 0 = t.kind := rfl

theorem kindAt_cons_succ (t : Token) (rest : List Token) (i : Nat) :
    kindAt (t :: rest) (i + 1) = kindAt rest i := rfl

/-- Behind the name of a type stands the name of a variable. -/
def declares (place : TypePlace) (tokens : List Token) : Bool :=
  match typeName? place tokens with
  | some rest => (kindAt rest 0).isIdentifier
  | none => false

theorem declares_cons (place : TypePlace) (t : Token) (rest : List Token) :
    declares place (t :: rest) = match place.step t.kind with
      | .go place => declares place rest
      | .stop => t.kind.isIdentifier
      | .fail => false := by
  rw [declares, typeName?]
  cases place.step t.kind <;> rfl

/-- Behind an operator the name of a type goes on in its arguments or behind them. -/
theorem step_of_sign {place place' : TypePlace} {kind : TokenKind} (hkind : kind ∈ plainSigns)
    (h : place.step kind = .go place') :
    (∃ depth, place' = .arguments depth) ∨ place' = .behindArguments := by
  have hsigns : ∀ k ∈ plainSigns, k.isIdentifier = false ∧ k ≠ .dot ∧ k ≠ .lbracket ∧
      k ≠ .rbracket := by decide
  obtain ⟨hname, hdot, hopen, hclose⟩ := hsigns kind hkind
  cases place with
  | part => simp [TypePlace.step, hname] at h
  | behindPart =>
      simp only [TypePlace.step, hdot, hopen, if_false] at h
      split at h
      next =>
          cases h
          exact .inl ⟨0, rfl⟩
      next => cases h
  | arguments depth =>
      simp only [TypePlace.step] at h
      split at h
      · cases h
        exact .inl ⟨_, rfl⟩
      split at h
      · split at h
        · cases h
          exact .inl ⟨_, rfl⟩
        · split at h
          · cases h
            exact .inr rfl
          · cases h
      · split at h
        · cases h
          exact .inl ⟨_, rfl⟩
        · cases h
  | behindArguments => simp [TypePlace.step, hdot, hopen] at h
  | bracket => simp [TypePlace.step, hclose] at h
  | behindBracket => simp [TypePlace.step, hopen] at h

end Skim

/-- An ending in front of which no declaration begins. -/
structure Opens (us : List Token) : Prop extends Ending us where
  colon : kindAt us 1 ≠ .colon
  name : declares .part us = false
  arguments : ∀ depth, declares (.arguments depth) us = false

namespace Opens

variable {y semi : Token} {ts us : List Token}

theorem declares_eq_false (hus : Opens us) (h : Closing y semi) {place : TypePlace}
    (hdeclares : declares place (ts ++ [y, semi]) = false)
    (hplace : ts = [] →
      place = .part ∨ (∃ depth, place = .arguments depth) ∨ place = .behindArguments)
    (hlast : ∀ t ∈ ts.getLast?, t.kind ∈ plainSigns) : declares place (ts ++ us) = false := by
  induction ts generalizing place with
  | nil =>
      rcases hplace rfl with rfl | ⟨depth, rfl⟩ | rfl
      · exact hus.name
      · exact hus.arguments depth
      · -- the name would be that of a variable
        rw [List.nil_append, declares_cons, h.name] at hdeclares
        cases hdeclares
  | cons t ts ih =>
      rw [List.cons_append, declares_cons] at hdeclares ⊢
      cases hstep : place.step t.kind with
      | go place' =>
          rw [hstep] at hdeclares
          refine ih hdeclares (fun hnil => ?_) fun u hu => hlast u (List.mem_getLast?_cons hu)
          subst hnil
          exact .inr (step_of_sign (hlast t rfl) hstep)
      | stop =>
          rw [hstep] at hdeclares
          exact hdeclares
      | fail => rfl

end Opens

/-- The first two kinds are those behind another ending, unless the first is an operator or
the first of the ending. -/
theorem Opens.kinds {y semi : Token} {ts us : List Token} (hus : Opens us) (h : LeadsUp ts) :
    (kindAt (ts ++ us) 0 ∈ .identifier :: .floatLiteral :: plainSigns ∧
        (kindAt (ts ++ us) 0 ∈ plainSigns ∨ kindAt (ts ++ us) 1 ≠ .colon)) ∨
      kindAt (ts ++ us) 0 = kindAt (ts ++ [y, semi]) 0 ∧
      kindAt (ts ++ us) 1 = kindAt (ts ++ [y, semi]) 1 ∧ kindAt (ts ++ us) 1 ∈ plainKinds := by
  match ts, h with
  | [], _ =>
      have hkinds : ∀ k ∈ [TokenKind.identifier, .floatLiteral],
          k ∈ .identifier :: .floatLiteral :: plainSigns := by decide
      exact .inl ⟨hkinds _ hus.first, .inr hus.colon⟩
  | [t], h =>
      have hsign : t.kind ∈ plainSigns := h.sign t rfl
      exact .inl ⟨List.mem_cons_of_mem _ (List.mem_cons_of_mem _ hsign), .inl hsign⟩
  | t :: u :: ts, h => exact .inr ⟨rfl, rfl, h.plain u (by simp)⟩

namespace StartsExpression

variable {y semi : Token} {ts us : List Token}

/-- The kinds of tokens with which an expression can begin. -/
def starts : List TokenKind := .floatLiteral :: plainKinds

theorem localClass_eq {tokens : List Token} (hfirst : kindAt tokens 0 ∈ starts)
    (hsealed : kindAt tokens 0 = .kwSealed → kindAt tokens 1 ∉ afterSealed) :
    Ahead.localClass.holds tokens = isTypeDecl (kindAt tokens 0) (kindAt tokens 1) := by
  have hstarts : ∀ k ∈ starts, k ≠ .atSign ∧ k ∉ plainModifiers ∧ k ≠ .kwDefault := by decide
  obtain ⟨hat, hplain, hdefault⟩ := hstarts _ hfirst
  have hsame : modifiers anyModifier .between tokens = tokens := by
    cases tokens with
    | nil => rfl
    | cons t rest =>
        simp only [kindAt_cons_zero, kindAt_cons_succ] at hat hplain hdefault hsealed
        have hannotation : isAnnotationStart t.kind (kindAt rest 0) = false := by
          rw [isAnnotationStart, beq_eq_false_iff_ne.mpr hat, Bool.false_and]
        have hmodifier : isModifier t.kind (kindAt rest 0) = false := by
          simp only [isModifier, Bool.or_eq_false_iff, Bool.and_eq_false_iff,
            beq_eq_false_iff_ne]
          refine ⟨⟨?_, .inl (.inl hdefault)⟩, ?_⟩
          · simpa using hplain
          · by_cases hkind : t.kind = .kwSealed
            · exact .inr (by simpa using hsealed hkind)
            · exact .inl hkind
        rw [modifiers]
        simp [ModifierPlace.next?, anyModifier, hannotation, hmodifier]
  simp only [Ahead.holds, hsame]
  simp [hat]

theorem localVariable_eq {tokens : List Token} (hfirst : kindAt tokens 0 ∈ starts) :
    Ahead.localVariable.holds tokens = declares .part tokens := by
  have hstarts : ∀ k ∈ starts, k ≠ .atSign ∧ k ≠ .kwFinal ∧ k.isPrimitive = false := by decide
  obtain ⟨hat, hfinal, hprimitive⟩ := hstarts _ hfirst
  have hsame : modifiers variableModifier .between tokens = tokens := by
    cases tokens with
    | nil => rfl
    | cons t rest =>
        rw [kindAt_cons_zero] at hat hfinal
        have hnone : variableModifier t rest = none := by
          rw [variableModifier, if_neg hat, if_neg hfinal]
        rw [modifiers]
        simp [ModifierPlace.next?, hnone]
  simp only [Ahead.holds, hsame, type?, hprimitive]
  rfl

theorem first_mem_starts (hleads : LeadsUp ts) (hus : Ending us) :
    kindAt (ts ++ us) 0 ∈ starts := by
  cases ts with
  | nil =>
      have hkinds : ∀ k ∈ [TokenKind.identifier, .floatLiteral], k ∈ starts := by decide
      exact hkinds _ hus.first
  | cons t ts => exact List.mem_cons_of_mem _ (hleads.plain t List.mem_cons_self)

/-- The conditions that see two tokens. -/
def firstTwo : List Look :=
  [.both (.next [.kwYield]) (.isNot (.second afterYieldName)), nameBefore .colon,
   .ahead .localClass]

/-- What these conditions see. -/
def isOther (first second : TokenKind) : Bool :=
  (first == .kwYield && !afterYieldName.contains second)
    || (first.isIdentifier && second == .colon) || isTypeDecl first second

theorem firstTwo_iff {tokens : List Token} (hfirst : kindAt tokens 0 ∈ starts)
    (hsealed : kindAt tokens 0 = .kwSealed → kindAt tokens 1 ∉ afterSealed) :
    (∀ look ∈ firstTwo, look.holds [] tokens = false) ↔
      isOther (kindAt tokens 0) (kindAt tokens 1) = false := by
  simp only [firstTwo, List.forall_mem_cons, List.not_mem_nil, false_implies, implies_true,
    and_true, Look.holds, nameBefore, Form.atName, localClass_eq hfirst hsealed, isOther,
    Bool.or_eq_false_iff, TokenKind.isIdentifier, List.contains_cons, List.contains_nil,
    Bool.or_false, and_assoc]

theorem isOther_eq_false {first second : TokenKind}
    (hfirst : first ∈ .identifier :: .floatLiteral :: plainSigns)
    (h : first ∈ plainSigns ∨ second ≠ .colon) : isOther first second = false := by
  have hkinds : ∀ k ∈ .identifier :: .floatLiteral :: plainSigns,
      k ≠ .kwYield ∧ k ≠ .atSign ∧ k ≠ .kwRecord ∧ k ∉ [TokenKind.kwClass, .kwInterface, .kwEnum] ∧
      (k ∈ plainSigns → k.isIdentifier = false) := by decide
  obtain ⟨hyield, hat, hrecord, hdecl, hsign⟩ := hkinds _ hfirst
  have hlabel : (first.isIdentifier && second == .colon) = false := by
    rcases h with h | h
    · rw [hsign h, Bool.false_and]
    · rw [beq_eq_false_iff_ne.mpr h, Bool.and_false]
  have hclass : [TokenKind.kwClass, .kwInterface, .kwEnum].contains first = false := by
    simpa using hdecl
  rw [isOther, isTypeDecl, hlabel, hclass, beq_eq_false_iff_ne.mpr hyield,
    beq_eq_false_iff_ne.mpr hat, beq_eq_false_iff_ne.mpr hrecord]
  rfl

theorem firstTwo_subset : firstTwo ⊆ otherStatements := by
  simp [firstTwo, otherStatements]

theorem of_firstTwo (h : StartsExpression (ts ++ [y, semi])) (hleads : LeadsUp ts)
    (hus : Opens us) :
    ∀ look ∈ firstTwo, look.holds [] (ts ++ us) = false := by
  have hfirst := first_mem_starts hleads hus.toEnding
  rcases @Opens.kinds y semi ts us hus hleads with ⟨hkind, hcolon⟩ | ⟨hzero, hone, hplain⟩
  · have hsealed : TokenKind.kwSealed ∉ .identifier :: .floatLiteral :: plainSigns := by decide
    refine (firstTwo_iff hfirst fun hkind' => ?_).mpr (isOther_eq_false hkind hcolon)
    rw [hkind'] at hkind
    exact absurd hkind hsealed
  · have hafter : ∀ k ∈ plainKinds, k ∉ afterSealed := by decide
    rw [firstTwo_iff hfirst fun _ => hafter _ hplain, hzero, hone,
      ← firstTwo_iff (hzero ▸ hfirst) fun _ => hafter _ (hone ▸ hplain)]
    exact fun look hlook => h look (firstTwo_subset hlook)

theorem of_declares {tokens : List Token} (hfirst : kindAt tokens 0 ∈ starts)
    (htwo : ∀ look ∈ firstTwo, look.holds [] tokens = false)
    (hdeclares : declares .part tokens = false) : StartsExpression tokens := by
  have hkinds : ∀ k ∈ starts, (∀ kinds ∈ statementStarts, k ∉ kinds) ∧
      k ∉ [TokenKind.kwSynchronized] ∧ k ∉ [TokenKind.rbrace] ∧
      k ∉ [TokenKind.rparen, .rbracket] := by decide
  have hnext : ∀ kinds, kindAt tokens 0 ∉ kinds → (Look.next kinds).holds [] tokens = false := by
    intro kinds hnot
    rw [Look.holds_next, List.contains_eq_mem, decide_eq_false_iff_not]
    exact hnot
  obtain ⟨hstarts, hsynchronized, hrbrace, hclosers⟩ := hkinds _ hfirst
  intro look hlook
  simp only [otherStatements, List.mem_append, List.mem_map, List.mem_cons, List.not_mem_nil,
    or_false] at hlook
  rcases hlook with ⟨kinds, hmem, rfl⟩ | rfl | rfl | rfl | rfl | rfl | rfl | rfl
  · exact hnext _ (hstarts kinds hmem)
  · rw [Look.holds, hnext _ hsynchronized, Bool.false_and]
  · exact htwo _ (by simp [firstTwo])
  · exact hnext _ hrbrace
  · exact hnext _ hclosers
  · exact htwo _ (by simp [firstTwo])
  · exact htwo _ (by simp [firstTwo])
  · rw [Look.holds, localVariable_eq hfirst, hdeclares]

theorem of_ending (h : StartsExpression (ts ++ [y, semi])) (hclosing : Closing y semi)
    (hleads : LeadsUp ts) (hus : Opens us) : StartsExpression (ts ++ us) := by
  refine of_declares (first_mem_starts hleads hus.toEnding) (of_firstTwo h hleads hus) ?_
  refine hus.declares_eq_false hclosing ?_ (fun _ => .inl rfl) hleads.sign
  rw [← localVariable_eq (first_mem_starts hleads hclosing.endsWith.toEnding)]
  exact h (.ahead .localVariable) (by simp [otherStatements])

/-- A name in front of a semicolon is an expression. -/
theorem of_closing (h : Closing y semi) : StartsExpression [y, semi] := by
  have hfirst := first_mem_starts .nil h.endsWith.toEnding
  refine of_declares hfirst ((firstTwo_iff hfirst ?_).mpr (isOther_eq_false ?_ (.inr ?_))) ?_
  · rw [List.nil_append, kindAt_cons_zero, h.name]
    exact nofun
  · rw [List.nil_append, kindAt_cons_zero, h.name]
    exact List.mem_cons_self
  · rw [List.nil_append, kindAt_cons_succ, kindAt_cons_zero, h.close]
    exact nofun
  · simp only [declares_cons, h.name, h.close]
    rfl

end StartsExpression

end DotCompletion
