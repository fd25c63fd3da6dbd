import DotCompletion.Proofs.Grammar.ClosingAngles
import DotCompletion.Proofs.WrittenType.Basic

/-!
# Types are read back

The rule for types makes the tree of a type of its lexemes, up to closing brackets in one sign
(`WrittenType.turns`). The cases of the proof are those of the grammar: a primitive type, a name
with its arguments, a wildcard; and a list of arguments, which is a loop of its own.
-/

namespace DotCompletion

open Grammar Form

open Lexeme (sign fused kindAt)

/-- What stands behind a type does not go on with it: the name of a variable, or what separates and
closes type arguments. -/
def Closes (plain : List Lexeme) : Prop := kindAt plain 0 ∈ [TokenKind.identifier, .comma, .greater]

theorem Closes.fused_not_mem {plain : List Lexeme} (h : Closes plain) :
    ∀ k ∈ fused (kindAt plain 0), k ∉ [TokenKind.less] ∧ k ∉ [TokenKind.dot] ∧
      k ∉ [TokenKind.lbracket] ∧ k ∉ [TokenKind.kwExtends, .kwSuper] := by
  have hkinds : ∀ k' ∈ [TokenKind.identifier, .comma, .greater], ∀ k ∈ fused k',
      k ∉ [TokenKind.less] ∧ k ∉ [TokenKind.dot] ∧ k ∉ [TokenKind.lbracket] ∧
        k ∉ [TokenKind.kwExtends, .kwSuper] := by decide
  exact hkinds _ h

/-- What begins a type or a wildcard is no closing bracket, nor an annotation. -/
theorem TypeArgument.of_mem_starts {l : Lexeme} (h : l.kind ∈ TypeArgument.starts) :
    l ≠ sign .greater ∧ l.kind ∉ Cursor.splittable ∧
      ∀ k ∈ fused l.kind, k ∉ [TokenKind.greater, .eof] ∧ k ∉ [TokenKind.atSign] := by
  have hkinds : ∀ k' ∈ TypeArgument.starts, k' ≠ .greater ∧ k' ∉ Cursor.splittable ∧
      ∀ k ∈ fused k', k ∉ [TokenKind.greater, .eof] ∧ k ∉ [TokenKind.atSign] := by decide
  obtain ⟨hne, hrest⟩ := hkinds _ h
  exact ⟨fun heq => hne (congrArg Lexeme.kind heq), hrest⟩

namespace Form

variable {frame frame' frame'' : List Sketch} {plain front behind back : List Lexeme} {l : Lexeme}
  {s : Sketch}

theorem turnsApart_dims (dims : Nat)
    (hback : ∀ k ∈ fused (kindAt back 0), k ∉ [TokenKind.lbracket]) :
    (Form.rule .dims).TurnsApart frame (WrittenType.dimensions dims ++ back)
      (frame ++ (WrittenType.dimensions dims).map .token) back := by
  induction dims generalizing frame with
  | zero =>
      rw [show frame ++ (WrittenType.dimensions 0).map .token = frame from List.append_nil _]
      exact .rule (.no (.both_not_next _ hback) .done)
  | succ dims ih =>
      have hsplit : WrittenType.dimensions (dims + 1) =
          sign .lbracket :: sign .rbracket :: WrittenType.dimensions dims := by
        rw [WrittenType.dimensions, List.replicate_succ, List.flatten_cons, WrittenType.dimensions]
        rfl
      rw [hsplit]
      have hmore :=
        @ih (frame ++ [Sketch.token (sign .lbracket)] ++ [Sketch.token (sign .rbracket)])
      simp only [List.append_assoc] at hmore
      refine .rule (.yes (.next_second (by decide) (by decide) (by decide) (by decide))
        (.seq (.seq (.token (by decide)) (.token (by decide))) ?_))
      simpa using hmore

/-- No annotation stands in front of a type. -/
theorem turnsApart_annotations (hl : l.kind ∈ TypeArgument.starts) :
    (Form.rule .annotations).TurnsApart frame (l :: plain) frame (l :: plain) := by
  refine .rule (.optional_idle ?_ _ _)
  intro k hk
  exact ((TypeArgument.of_mem_starts hl).2.2 k hk).2

/-- A primitive type takes its dimensions along. -/
theorem turnsApart_primitive (k : Expr.Sign WrittenType.primitives)
    (h : (Form.rule .dims).TurnsApart [.token (sign k)] plain frame' back) :
    (Form.rule .typeUse).TurnsApart [] (sign k :: plain) [.node .typeUse frame'] back := by
  have hkinds : ∀ k ∈ WrittenType.primitives, k ≠ .greater ∧
      k ∈ TokenKind.primitives ++ [TokenKind.kwVoid, .kwVar] := by decide
  obtain ⟨hne, hprimitive⟩ := hkinds k k.2
  have hstart : (sign k).kind ∈ TypeArgument.starts :=
    List.mem_cons_of_mem _ (List.mem_cons_of_mem _ k.2)
  refine .rule (.node .typeUse (.seq (turnsApart_annotations hstart) ?_))
  exact .yes (.next hprimitive hne) (.seq (.token fun heq => hne (congrArg Lexeme.kind heq)) h)

/-- What begins with a name, is the name of a type and its dimensions. -/
theorem turnsApart_named {x : Bytes}
    (h : (Form.rule .typeName ++ Form.rule .dims).TurnsApart [] (⟨.identifier, x⟩ :: plain)
      frame' back) :
    (Form.rule .typeUse).TurnsApart [] (⟨.identifier, x⟩ :: plain) [.node .typeUse frame']
      back := by
  have hprimitive : ∀ k ∈ fused .identifier,
      k ∉ TokenKind.primitives ++ [TokenKind.kwVoid, .kwVar] := by
    decide
  have hname : TokenKind.identifier ∈ TokenKind.identifiers := by decide
  refine .rule (.node .typeUse (.seq (turnsApart_annotations ?_) ?_))
  · exact show TokenKind.identifier ∈ TypeArgument.starts by decide
  · exact .no (.next_not hprimitive) (.yes (.next hname nofun) h)

/-- A wildcard, perhaps with a bound. -/
theorem turnsApart_wildcard
    (h : (Form.optional [.kwExtends, .kwSuper] (token ++ call .typeUse)).TurnsApart
      [.token (sign .question)] plain frame' back) :
    (Form.rule .typeUse).TurnsApart [] (sign .question :: plain) [.node .typeUse frame'] back := by
  have hprimitive : ∀ k ∈ fused .question,
      k ∉ TokenKind.primitives ++ [TokenKind.kwVoid, .kwVar] := by
    decide
  have hname : ∀ k ∈ fused .question, k ∉ TokenKind.identifiers := by decide
  refine .rule (.node .typeUse (.seq (turnsApart_annotations ?_) ?_))
  · exact show TokenKind.question ∈ TypeArgument.starts by decide
  · exact .no (.next_not hprimitive) (.no (.next_not hname)
      (.yes (.next (List.mem_singleton_self _) nofun) (.seq (.token (by decide)) h)))

/-- A name without a dot behind it and its arguments. -/
theorem turnsApart_lastName {x : Bytes}
    (hargs : (Form.optional [.less] (call (.typeArguments .typeArguments))).TurnsApart
      (frame ++ [Sketch.leaf .identifier ⟨.identifier, x⟩]) plain frame' back)
    (hback : ∀ k ∈ fused (kindAt back 0), k ∉ [TokenKind.dot]) :
    (Form.rule .typeName).TurnsApart frame (⟨.identifier, x⟩ :: plain) frame' back :=
  .rule (.seq (.seq (.take .identifier nofun) hargs) (.no (.both_not_next _ hback) .done))

/-- A name with its arguments in front of a dot, and what stands behind the dot. -/
theorem turnsApart_dottedName {x y : Bytes}
    (hargs : (Form.optional [.less] (call (.typeArguments .typeArguments))).TurnsApart
      (frame ++ [Sketch.leaf .identifier ⟨.identifier, x⟩]) plain frame'
      (sign .dot :: ⟨.identifier, y⟩ :: behind))
    (hrest : (Form.rule .typeName).TurnsApart (frame' ++ [Sketch.token (sign .dot)])
      (⟨.identifier, y⟩ :: behind) frame'' back) :
    (Form.rule .typeName).TurnsApart frame (⟨.identifier, x⟩ :: plain) frame'' back := by
  have hname : TokenKind.identifier ∈ TokenKind.identifiers := by decide
  exact .rule (.seq (.seq (.take .identifier nofun) hargs)
    (.yes (.next_second (by decide) hname (by decide) nofun) (.seq (.token (by decide)) hrest)))

/-- An argument in front of others. -/
theorem turnsApart_list (hl : l.kind ∈ TypeArgument.starts)
    (hitem : (Form.rule .typeUse).TurnsApart [] (l :: (front ++ behind)) [s] behind)
    (hmore : (Form.optional [.comma] (token ++ .rule (.list .greater .typeUse))).TurnsApart
      (frame ++ [s]) behind frame' back) :
    (Form.rule (.list .greater .typeUse)).TurnsApart frame (l :: (front ++ behind)) frame'
      back := by
  obtain ⟨hne, hwhole, hkinds⟩ := TypeArgument.of_mem_starts hl
  have hmoved : behind ≠ l :: (front ++ behind) := fun heq =>
    List.cons_ne_nil l front (List.self_eq_append_left.mp heq)
  exact .rule (.no (.next_not fun k hk => (hkinds k hk).1)
    (.seq (.ifStuck (hitem.call _) hwhole hne hmoved) hmore))

/-- Arguments in angle brackets, of which there is one at least. -/
theorem turnsApart_typeArguments (hl : l.kind ∈ TypeArgument.starts)
    (h : (Form.rule (.list .greater .typeUse)).TurnsApart [.token (sign .less)] (l :: plain)
      frame' (sign .greater :: back)) :
    (Form.optional [.less] (call (.typeArguments .typeArguments))).TurnsApart frame
      (sign .less :: l :: plain)
      (frame ++ [Sketch.node .typeArguments (frame' ++ [Sketch.token (sign .greater)])]) back := by
  obtain ⟨hne, hwhole, hkinds⟩ := TypeArgument.of_mem_starts hl
  have hgreater : ∀ k ∈ fused l.kind, k ∉ [TokenKind.greater] := fun k hk hmem =>
    (hkinds k hk).1 (List.mem_cons.mpr (.inl (List.mem_singleton.mp hmem)))
  have hform : (Rule.typeArguments .typeArguments).form.TurnsApart [] (sign .less :: l :: plain)
      [.node .typeArguments (frame' ++ [Sketch.token (sign .greater)])] back :=
    .node .typeArguments (.seq (.seq (.seq (.token (by decide)) (.splitAngle_idle hwhole hne))
      (.no (.next_not hgreater) h)) .expectAngle)
  exact .optional (List.mem_singleton_self _) nofun (.call (.rule hform) frame)

end Form

/-! ## Every type -/

/-- What follows the arguments of a type in brackets, closes it. -/
theorem TypeArgument.closes_more (args : List TypeArgument) (back : List Lexeme) :
    Closes (TypeArgument.more args ++ sign .greater :: back) := by
  cases args with
  | nil => exact show TokenKind.greater ∈ [TokenKind.identifier, .comma, .greater] by decide
  | cons a rest => exact show TokenKind.comma ∈ [TokenKind.identifier, .comma, .greater] by decide

mutual

/-- By induction on the type, in front of whatever may follow it. -/
theorem WrittenType.turns (t : WrittenType) {back : List Lexeme} (h : Closes back) :
    (Form.rule .typeUse).TurnsApart [] (t.lexemes ++ back) [t.sketch] back := by
  have hdims : ∀ frame dims, (Form.rule .dims).TurnsApart frame
      (WrittenType.dimensions dims ++ back)
      (frame ++ (WrittenType.dimensions dims).map .token) back :=
    fun frame dims => turnsApart_dims dims fun k hk => (h.fused_not_mem k hk).2.2.1
  match t with
  | .primitive k dims => exact turnsApart_primitive k (hdims _ dims)
  | .named n dims =>
      have hbehind : ∀ k ∈ fused (kindAt (WrittenType.dimensions dims ++ back) 0),
          k ∉ [TokenKind.less] ∧ k ∉ [TokenKind.dot] := by
        cases dims with
        | zero => exact fun k hk => ⟨(h.fused_not_mem k hk).1, (h.fused_not_mem k hk).2.1⟩
        | succ dims =>
            have hbracket : ∀ k ∈ fused .lbracket, k ∉ [TokenKind.less] ∧ k ∉ [TokenKind.dot] := by
              decide
            exact hbracket
      obtain ⟨x, row, hrow⟩ := n.exists_first
      have hname := n.turns [] hbehind
      rw [WrittenType.lexemes, List.append_assoc]
      rw [hrow] at hname ⊢
      exact turnsApart_named (hname.seq (hdims _ dims))

theorem TypeName.turns (n : TypeName) (frame : List Sketch) {back : List Lexeme}
    (h : ∀ k ∈ fused (kindAt back 0), k ∉ [TokenKind.less] ∧ k ∉ [TokenKind.dot]) :
    (Form.rule .typeName).TurnsApart frame (n.lexemes ++ back) (frame ++ n.sketches) back := by
  match n with
  | .last x args =>
      have hargs := TypeArgument.turns_listed args
        (frame ++ [Sketch.leaf .identifier ⟨.identifier, x⟩]) fun k hk => (h k hk).1
      rw [List.append_assoc] at hargs
      exact turnsApart_lastName hargs fun k hk => (h k hk).2
  | .dotted x args rest =>
      have hdot : ∀ k ∈ fused (kindAt (sign .dot :: (rest.lexemes ++ back)) 0),
          k ∉ [TokenKind.less] := show ∀ k ∈ fused .dot, k ∉ [TokenKind.less] by decide
      have hargs := TypeArgument.turns_listed args
        (frame ++ [Sketch.leaf .identifier ⟨.identifier, x⟩]) hdot
      obtain ⟨y, row, hrow⟩ := rest.exists_first
      have hrest := rest.turns (frame ++ [Sketch.leaf .identifier ⟨.identifier, x⟩] ++
        TypeArgument.sketches args ++ [Sketch.token (sign .dot)]) h
      rw [TypeName.lexemes, List.cons_append, List.append_assoc, List.cons_append]
      rw [hrow] at hargs hrest ⊢
      have hname := turnsApart_dottedName hargs hrest
      simp only [List.append_assoc, List.singleton_append] at hname
      exact hname

theorem TypeArgument.turns (a : TypeArgument) {back : List Lexeme} (h : Closes back) :
    (Form.rule .typeUse).TurnsApart [] (a.lexemes ++ back) [a.sketch] back := by
  match a with
  | .exact t => exact t.turns h
  | .any =>
      refine turnsApart_wildcard (.optional_idle ?_ _ _)
      exact fun k hk => (h.fused_not_mem k hk).2.2.2
  | .bounded word t =>
      have hwords : ∀ k ∈ TypeArgument.bounds, k ∈ [TokenKind.kwExtends, .kwSuper] ∧
          k ≠ .greater := by decide
      obtain ⟨hword, hne⟩ := hwords word.1 word.2
      exact turnsApart_wildcard (.optional hword hne
        (.seq (.token fun heq => hne (congrArg Lexeme.kind heq)) ((t.turns h).call _)))

theorem TypeArgument.turns_listed (args : List TypeArgument) (frame : List Sketch)
    {back : List Lexeme} (h : ∀ k ∈ fused (kindAt back 0), k ∉ [TokenKind.less]) :
    (Form.optional [.less] (call (.typeArguments .typeArguments))).TurnsApart frame
      (TypeArgument.listed args ++ back) (frame ++ TypeArgument.sketches args) back := by
  match args with
  | [] =>
      rw [TypeArgument.sketches, List.append_nil]
      exact .optional_idle h _ _
  | a :: rest =>
      obtain ⟨l, row, hrow, hl⟩ := a.exists_first
      have hitem := a.turns (TypeArgument.closes_more rest back)
      have hmore := TypeArgument.turns_more rest ([Sketch.token (sign .less)] ++ [a.sketch]) back
      rw [TypeArgument.listed, List.cons_append, List.append_assoc, List.append_assoc]
      rw [hrow] at hitem ⊢
      exact turnsApart_typeArguments hl (turnsApart_list hl hitem hmore)

theorem TypeArgument.turns_more (args : List TypeArgument) (frame : List Sketch)
    (back : List Lexeme) :
    (Form.optional [.comma] (token ++ .rule (.list .greater .typeUse))).TurnsApart frame
      (TypeArgument.more args ++ sign .greater :: back) (frame ++ TypeArgument.moreSketches args)
      (sign .greater :: back) := by
  match args with
  | [] =>
      have hgreater : ∀ k ∈ fused .greater, k ∉ [TokenKind.comma] := by decide
      rw [TypeArgument.moreSketches, List.append_nil]
      refine .optional_idle ?_ _ _
      exact hgreater
  | a :: rest =>
      obtain ⟨l, row, hrow, hl⟩ := a.exists_first
      have hitem := a.turns (TypeArgument.closes_more rest back)
      have hmore := TypeArgument.turns_more rest
        (frame ++ [Sketch.token (sign .comma)] ++ [a.sketch]) back
      have hframe : frame ++ [Sketch.token (sign .comma)] ++ [a.sketch] ++
          TypeArgument.moreSketches rest = frame ++ TypeArgument.moreSketches (a :: rest) := by
        simp [TypeArgument.moreSketches]
      rw [hframe] at hmore
      rw [TypeArgument.more, List.cons_append, List.append_assoc]
      rw [hrow] at hitem ⊢
      exact .optional (List.mem_singleton_self _) nofun
        (.seq (.token (by decide)) (turnsApart_list hl hitem hmore))

end

end DotCompletion
