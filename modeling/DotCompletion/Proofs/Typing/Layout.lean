import DotCompletion.Proofs.Completion.Shapes
import DotCompletion.Proofs.Completion.Unplaced
import DotCompletion.Proofs.Grammar.Beginnings
import DotCompletion.Proofs.Grammar.Joints
import DotCompletion.Proofs.Tree.LeafOrder
import DotCompletion.Proofs.Typing.Isolation

/-!
# Types do not see places

Almost every step from expressions to their types looks at kinds, at links between nodes and at
the tokens of single leaves. Two sources with the same tokens have trees that are alike in these,
so they have the same types (`Tree.Alike.typeOf`). Only the type of a `this` behind a qualifier is
cut out of the source: it has the blanks and the comments that stand between the tokens of the
qualifier, and the types differ where the qualifiers do and nowhere else
(`Entry.typeOf_ignores_layout`).
-/

namespace DotCompletion

open Token (significant)

namespace Tree

namespace Alike

variable {t u : Tree} (h : t.Alike u)

include h

/-! ## Tokens and nodes below -/

theorem lexeme (id : Nat) : (t.token? id).map Token.lexeme = (u.token? id).map Token.lexeme := by
  have htoken := congrArg (Option.map Token.lexeme) (h.token? id)
  rw [Option.map_map, Option.map_map] at htoken
  exact htoken

theorem tokenKind (id : Nat) : (t.token? id).map Token.kind = (u.token? id).map Token.kind := by
  have htoken := congrArg (Option.map Token.kind) (h.token? id)
  rw [Option.map_map, Option.map_map] at htoken
  exact htoken

theorem tokenText (o : Option Nat) : t.tokenText o = u.tokenText o := by
  cases o with
  | none => rfl
  | some id =>
      have htoken := congrArg (Option.map Token.literal) (h.token? id)
      rw [Option.map_map, Option.map_map] at htoken
      exact congrArg (Option.getD · []) htoken

theorem firstOfKind? (kinds : List NodeKind) (id : Nat) :
    t.firstOfKind? kinds id = u.firstOfKind? kinds id := by
  rw [Tree.firstOfKind?, Tree.firstOfKind?, h.children, h.hasKind]

theorem walkTo (enter : NodeKind → Bool) (levels : Nat) :
    t.walkTo enter levels = u.walkTo enter levels := by
  induction levels with
  | zero => rfl
  | succ levels ih =>
      funext id behind
      have hslot := h.slot? id
      rw [Tree.walkTo, Tree.walkTo]
      cases ht : t.slot? id with
      | none =>
          rw [ht, Option.map_none, eq_comm, Option.map_eq_none_iff] at hslot
          rw [hslot]
      | some s =>
          rw [ht, Option.map_some, eq_comm, Option.map_eq_some_iff] at hslot
          obtain ⟨s', hu, hsame⟩ := hslot
          have hkind : s'.unplaced.kind = s.unplaced.kind := congrArg Slot.kind hsame
          change s'.kind = s.kind at hkind
          simp only [hu, hkind, h.children, ih]

theorem walk (enter : NodeKind → Bool) (id : Nat) : t.walk enter id = u.walk enter id := by
  rw [Tree.walk, Tree.walk, h.walkTo, h.size]

/-! ## Declarations -/

theorem lexemes (l : List Nat) :
    (l.filterMap t.token?).map Token.lexeme = (l.filterMap u.token?).map Token.lexeme := by
  rw [List.map_filterMap, List.map_filterMap]
  exact List.filterMap_congr fun id _ => h.lexeme id

theorem writtenType? : t.writtenType? = u.writtenType? := by
  funext id
  simp only [Tree.writtenType?, h.walk, h.isA, Sharing.foldl_appendToken (h.lexemes _)]

theorem dimensions (id : Nat) : t.dimensions id = u.dimensions id := by
  simp only [Tree.dimensions, h.children, h.isA, h.tokenKind]

theorem infersTypes (decl : Nat) : t.infersTypes decl = u.infersTypes decl := by
  simp only [Tree.infersTypes, h.firstOfKind?, h.firstChild?, Option.map_bind, Function.comp_def,
    h.tokenKind]

theorem variableBinding? (decl : Nat) (name : Bytes) :
    t.variableBinding? decl name = u.variableBinding? decl name := by
  simp only [Tree.variableBinding?, h.isA, h.tokenText, h.firstOfKind?, h.children, h.infersTypes,
    h.lastChild?, h.isExpression, h.writtenType?, h.dimensions]

theorem parameterBinding? (param : Nat) (name : Bytes) :
    t.parameterBinding? param name = u.parameterBinding? param name := by
  simp only [Tree.parameterBinding?, h.children, h.isA, h.tokenText, h.tokenKind, h.writtenType?,
    h.dimensions]

theorem listedBinding? (params : Option Nat) (name : Bytes) :
    t.listedBinding? params name = u.listedBinding? params name := by
  simp only [Tree.listedBinding?, Tree.childrenOf, funext h.children, h.isA, h.parameterBinding?]

theorem fieldBinding? (body : Nat) (name : Bytes) :
    t.fieldBinding? body name = u.fieldBinding? body name := by
  simp only [Tree.fieldBinding?, h.children, h.isA, h.variableBinding?, h.parent?, h.listedBinding?,
    h.firstOfKind?]

theorem patternBinding? (root : Nat) (name : Bytes) :
    t.patternBinding? root name = u.patternBinding? root name := by
  simp only [Tree.patternBinding?, h.walk, h.isA, h.lastChild?, h.tokenText, h.previous?,
    h.writtenType?]

theorem siblingBinding? (sibling : Nat) (name : Bytes) :
    t.siblingBinding? sibling name = u.siblingBinding? sibling name := by
  simp only [Tree.siblingBinding?, h.kind?, h.variableBinding?, h.parameterBinding?]

theorem lambdaBinding? (param : Nat) (name : Bytes) :
    t.lambdaBinding? param name = u.lambdaBinding? param name := by
  simp only [Tree.lambdaBinding?, h.kind?, h.tokenText, h.parameterBinding?]

theorem bindingIn? (name : Bytes) (child scope : Nat) :
    t.bindingIn? name child scope = u.bindingIn? name child scope := by
  simp only [Tree.bindingIn?, Tree.childrenOf, h.kind?, h.before, h.siblingBinding?, h.firstOfKind?,
    h.variableBinding?, funext h.children, h.isA, h.parameterBinding?, h.listedBinding?,
    h.lambdaBinding?, h.patternBinding?, h.fieldBinding?]

theorem nameBinding? (use : Nat) (name : Bytes) :
    t.nameBinding? use name = u.nameBinding? use name := by
  simp only [Tree.nameBinding?, h.ancestors, h.bindingIn?]

theorem ownFieldBinding? (use : Nat) (name : Bytes) :
    t.ownFieldBinding? use name = u.ownFieldBinding? use name := by
  simp only [Tree.ownFieldBinding?, h.ancestor?, h.fieldBinding?]

/-! ## Steps -/

theorem literalType (id : Nat) :
    (t.token? id).bind literalType = (u.token? id).bind literalType := by
  have htoken := congrArg (Option.bind · Tree.literalType) (h.token? id)
  simp only [Option.bind_map] at htoken
  exact htoken

theorem operator? (id : Nat) : t.operator? id = u.operator? id := by
  simp only [Tree.operator?, h.children, h.isA, h.tokenKind]

theorem unaryStep (id : Nat) : t.unaryStep id = u.unaryStep id := by
  simp only [Tree.unaryStep, h.operator?, h.lastChild?]

theorem binaryStep (id : Nat) : t.binaryStep id = u.binaryStep id := by
  simp only [Tree.binaryStep, h.operator?, h.firstChild?, h.lastChild?]

theorem ternaryStep (id : Nat) : t.ternaryStep id = u.ternaryStep id := by
  simp only [Tree.ternaryStep, h.children, h.isExpression]

theorem newArrayType? (id : Nat) : t.newArrayType? id = u.newArrayType? id := by
  simp only [Tree.newArrayType?, h.firstOfKind?, h.writtenType?, h.children, h.tokenKind]

theorem referenceStep (id : Nat) : t.referenceStep id = u.referenceStep id := by
  simp only [Tree.referenceStep, h.firstChild?, h.lastChild?, h.isA, h.tokenText, h.nameBinding?,
    h.ownFieldBinding?, h.children]

end Alike

/-! ## Texts -/

/-- What is written in front of `this` and a dot. -/
def qualifierOfThis? (t : Tree) (id : Nat) : Option Nat :=
  if t.isA .thisExpr id then t.firstChild? id else none

/-- If the node is a qualified `this`, its qualifier is the same text in the other tree. -/
def SameQualifier (t u : Tree) (id : Nat) : Prop :=
  ∀ q ∈ t.qualifierOfThis? id, t.text q = u.text q

/-- The node is a name that nothing qualifies. -/
def IsName (t : Tree) (id : Nat) : Prop :=
  t.isA .referenceExpr id = true ∧ (t.children id).length = 2

namespace Alike

variable {t u : Tree} (h : t.Alike u)

include h

theorem qualifierOfThis? (id : Nat) : t.qualifierOfThis? id = u.qualifierOfThis? id := by
  simp only [Tree.qualifierOfThis?, h.isA, h.firstChild?]

variable (hwords : ∀ id, t.isA .identifier id = true → t.text id = u.text id)

include hwords

theorem enclosingClass? (id : Nat) : t.enclosingClass? id = u.enclosingClass? id := by
  rw [Tree.enclosingClass?, Tree.enclosingClass?, h.ancestor?]
  refine Option.bind_congr fun decl _ => ?_
  rw [← h.firstOfKind?]
  refine Option.bind_congr fun name hname => ?_
  rw [hwords name (Sharing.isA_firstOfKind? hname)]

/-- Only the text of what qualifies a `this` may differ. -/
theorem step {id : Nat} (hqualifier : t.SameQualifier u id) :
    t.step id = u.step id := by
  rw [Tree.step, Tree.step, ← h.kind?]
  split
  next => rw [h.literalType]
  next => rw [h.firstOfKind?]
  next => rw [h.firstOfKind?, h.writtenType?]
  next => rw [h.firstOfKind?, h.writtenType?]
  next => exact h.unaryStep id
  next => rw [h.firstChild?]
  next => rw [h.firstChild?]
  next => exact h.binaryStep id
  next => rfl
  next => exact h.ternaryStep id
  next => rw [h.newArrayType?]
  next => rw [h.firstChild?]
  next hthis =>
      rw [SameQualifier, Tree.qualifierOfThis?, Tree.isA, Tree.hasKind, hthis] at hqualifier
      rw [← h.firstChild?]
      cases hfirst : t.firstChild? id with
      | none => exact congrArg TypeStep.always (h.enclosingClass? hwords id)
      | some qualifier => simp only [hqualifier qualifier hfirst]
  next => rfl
  next => exact h.referenceStep id
  next => rfl

/-- The types of an expression are the same if what qualifies a `this` is wherever one is asked
for on the way. -/
theorem infer {id : Nat}
    (hqualifiers : ∀ this, Relation.ReflTransGen t.Asks this id → t.SameQualifier u this)
    (depth : Nat) :
    t.infer depth id = u.infer depth id := by
  induction depth generalizing id with
  | zero => rfl
  | succ depth ih =>
      have hoperands : (t.step id).operands.mapM (t.infer depth) =
          (t.step id).operands.mapM (u.infer depth) :=
        Sharing.mapM_congr fun _ hasks => ih fun this hthis => hqualifiers this (hthis.tail hasks)
      rw [Tree.infer, Tree.infer, ← h.step hwords (hqualifiers id .refl)]
      exact congrArg (Option.map (t.step id).combine) hoperands

theorem typeOf {id : Nat}
    (hqualifiers : ∀ this, Relation.ReflTransGen t.Asks this id → t.SameQualifier u this) :
    t.typeOf id = u.typeOf id := by
  rw [Tree.typeOf, Tree.typeOf, h.infer hwords hqualifiers, h.size]

end Alike

/-! ## Texts of names -/

open Node (Numbered)

variable {entry : Entry} {source : Bytes} {id : Nat}

/-- A leaf is written as its token says. -/
theorem text_of_token {n : Node} {above : List (Nat × Node)} {token : Token}
    (hn : Numbered (entry.parse source) id n above) (htoken : n.token = some token) :
    (Tree.parse entry source).text id = token.literal := by
  obtain ⟨t, ht, hspan, -, hcase⟩ := (hn.every (entry.parse_laid source)).own.leaf_cases
    (by rw [htoken]; rfl)
  obtain rfl := Option.some.inj (ht.symm.trans htoken)
  have hstands : t.Stands source := by
    rcases hcase with ⟨_, hpart⟩ | ⟨_, rfl⟩
    · exact hpart.stands
    · exact .endAt source
  rw [Tree.parse, text, span?_eq hn, Option.map_some, Option.getD_some, hspan]
  exact hstands.textOf entry

/-- The text of a name is that of its token. -/
theorem text_of_identifier (h : (Tree.parse entry source).isA .identifier id = true) :
    (Tree.parse entry source).text id = (Tree.parse entry source).tokenText (some id) := by
  obtain ⟨n, above, hn, hkind⟩ := exists_of_hasKind h
  obtain ⟨t, ht⟩ := (hn.every (entry.parse_shaped source)).own.exists_token
    (by rw [beq_iff_eq.mp hkind]; rfl)
  rw [text_of_token hn ht, Tree.parse, tokenText, Option.bind_some, token?_eq hn, ht]
  rfl

/-- A reference that is a name alone has the name's token and no other. -/
theorem exists_name {n : Node} {above : List (Nat × Node)}
    (hn : Numbered (entry.parse source) id n above) (hkind : n.kind = .referenceExpr)
    (hlength : n.children.length = 2) : ∃ list name token, n.children = [list] ++ [name] ∧
      name.token = some token ∧ ∀ v ∈ n.yield, v = token := by
  have hformed := (hn.every (entry.parse_closed source).2.1).own
  have hshaped := hn.every (entry.parse_shaped source)
  have hlaid := hn.every (entry.parse_laid source)
  obtain ⟨list, name, hchildren, -, hlist, hnone, hname⟩ :
      ∃ list name, n.children = [list, name] ∧ list.kind = .referenceParameterList ∧
        list.token = none ∧ list.children = [] ∧ name.kind = .identifier := by
    rcases hformed.isReference hshaped.own hkind with h | ⟨_, _, _, _, hchildren, _⟩
    · exact h
    · rw [hchildren] at hlength
      cases hlength
  have hmem : name ∈ n.children := by simp [hchildren]
  obtain ⟨t, ht⟩ := (hshaped.child hmem).own.exists_token (by rw [hname]; rfl)
  have hleaf := ((hlaid.child hmem).own.leaf t ht).2.1
  have hinner : n.token = none := by
    cases htoken : n.token with
    | none => rfl
    | some t' => simp [(hlaid.own.leaf t' htoken).2.1] at hmem
  refine ⟨list, name, t, hchildren, ht, fun v hv => ?_⟩
  rw [Node.yield_eq, hinner, hchildren, Node.yieldAll_cons, Node.yieldAll_cons,
    Node.yield_eq list, hlist, hnone, Node.yield_eq name, ht, hleaf] at hv
  simp only [Option.filter_none, Option.toList_none, Node.yieldAll_nil, List.nil_append,
    List.append_nil, Option.mem_toList, Option.filter_eq_some_iff, Option.some.injEq] at hv
  exact hv.1.symm

/-- The text of a reference that is a name alone is that of the name. -/
theorem text_of_isName (h : (Tree.parse entry source).IsName id) :
    (Tree.parse entry source).text id =
      (Tree.parse entry source).tokenText ((Tree.parse entry source).lastChild? id) := by
  obtain ⟨hreference, hlength⟩ := h
  obtain ⟨n, above, hn, hkind⟩ := exists_of_hasKind hreference
  have hkind : n.kind = .referenceExpr := beq_iff_eq.mp hkind
  rw [Tree.parse, children_eq hn, Node.length_numbers] at hlength
  obtain ⟨list, name, t, hchildren, ht, hyield⟩ := exists_name hn hkind hlength
  have hm := Numbered.child hn hchildren
  -- both ends of the reference are ends of its only token
  obtain ⟨v, hv, hlo⟩ := (hn.every (entry.parse_begins source)).own (by rw [hkind]; rfl)
  obtain ⟨w, hw, hhi⟩ := (hn.every (entry.parse_joined source)).own.ended hkind
  rw [hyield v hv] at hlo
  rw [hyield w (List.mem_of_getLast? hw)] at hhi
  have hspan := ((hm.every (entry.parse_laid source)).own.leaf t ht).1
  have htext : (Tree.parse entry source).textOf n.span =
      (Tree.parse entry source).textOf name.span := by
    change textBetween _ n.lo n.hi = textBetween _ name.lo name.hi
    rw [← hlo, ← hhi, Node.lo, Node.hi, hspan]
    rfl
  have hliteral := text_of_token hm ht
  rw [Tree.parse, text, span?_eq hm, Option.map_some, Option.getD_some, ← Tree.parse] at hliteral
  rw [Tree.parse, text, span?_eq hn, Option.map_some, Option.getD_some, ← Tree.parse, htext,
    hliteral, Tree.parse, lastChild?_eq hn hchildren, tokenText, Option.bind_some, token?_eq hm, ht]
  rfl

theorem infer_isSome {root : Node} (hfields : (ofNode source (some root)).WritesFieldTypes)
    (id : Nat) :
    ((ofNode source (some root)).infer ((ofNode source (some root)).size + 1) id).isSome := by
  rw [infer_eq (asks_wellFounded hfields) (fun h => Asks.lt_size hfields h)]
  rfl

/-- The type of a qualified `this` is what is written in front of it. -/
theorem typeOf_this {t : Tree} {q : Nat} (h : t.qualifierOfThis? id = some q) :
    t.typeOf id = some ⟨t.text q⟩ := by
  rw [qualifierOfThis?] at h
  split at h
  next hthis =>
      obtain ⟨_, hkind, heq⟩ := Sharing.kind?_of_hasKind hthis
      obtain rfl := beq_iff_eq.mp heq
      have hstep : t.step id = .always (some ⟨t.text q⟩) := by
        rw [step, hkind]
        simp only [h]
      rw [typeOf, infer, hstep]
      rfl
  next => cases h

namespace Alike

variable {t u : Tree} (h : t.Alike u)

include h

theorem isName : t.IsName id ↔ u.IsName id := by
  rw [IsName, IsName, h.isA, h.children]

theorem writesFieldTypes (hfields : t.WritesFieldTypes) : u.WritesFieldTypes := by
  intro decl hdecl
  rw [← h.infersTypes]
  exact hfields decl (by rwa [h.isA])

end Alike

end Tree

namespace Entry

variable {source source' : Bytes}

section

variable (h : (significant source).map Token.lexeme = (significant source').map Token.lexeme)
  (entry : Entry)

include h

theorem alike_parse : (Tree.parse entry source).Alike (Tree.parse entry source') :=
  Tree.alike_ofNode (entry.unplaced_parse h)

theorem text_of_identifier_eq {id : Nat}
    (hid : (Tree.parse entry source).isA .identifier id = true) :
    (Tree.parse entry source).text id = (Tree.parse entry source').text id := by
  have halike := alike_parse h entry
  rw [Tree.text_of_identifier hid, halike.tokenText, Tree.text_of_identifier (halike.isA _ ▸ hid)]

theorem text_of_isName_eq {id : Nat} (hid : (Tree.parse entry source).IsName id) :
    (Tree.parse entry source).text id = (Tree.parse entry source').text id := by
  have halike := alike_parse h entry
  rw [Tree.text_of_isName hid, halike.tokenText, halike.lastChild?,
    Tree.text_of_isName (halike.isName.mp hid)]

end

/-- Blanks and comments have to do with types in one place only, in front of a qualified `this`.
The types of two sources with the same tokens are the same if the qualifiers are the same texts,
and no others are the same everywhere. A qualifier that is a name alone is the same text. -/
theorem typeOf_ignores_layout (h : (significant source).map Token.lexeme =
      (significant source').map Token.lexeme) (entry : Entry)
    (hfields : ∀ decl < (Tree.parse entry source).size,
      (Tree.parse entry source).isA .fieldDecl decl = true →
        (Tree.parse entry source).infersTypes decl = false) :
    (∀ id, ((Tree.parse entry source).infer ((Tree.parse entry source).size + 1) id).isSome ∧
      ((Tree.parse entry source').infer ((Tree.parse entry source').size + 1) id).isSome) ∧
    (∀ id, (∀ this, Relation.ReflTransGen (Tree.parse entry source).Asks this id →
        (Tree.parse entry source).SameQualifier (Tree.parse entry source') this) →
      (Tree.parse entry source).typeOf id = (Tree.parse entry source').typeOf id) ∧
    ((∀ id, (Tree.parse entry source).typeOf id = (Tree.parse entry source').typeOf id) ↔
      ∀ this, (Tree.parse entry source).SameQualifier (Tree.parse entry source') this) ∧
    ∀ q, (Tree.parse entry source).IsName q →
      (Tree.parse entry source).text q = (Tree.parse entry source').text q := by
  have halike := alike_parse h entry
  have hwords := fun id hid => @text_of_identifier_eq source source' h entry id hid
  have hwritten := writesFieldTypes hfields
  refine ⟨fun id => ⟨Tree.infer_isSome hwritten id,
      Tree.infer_isSome (halike.writesFieldTypes hwritten) id⟩,
    fun id => halike.typeOf hwords, ⟨fun hsame this q hq => ?_, fun hqualifiers id => ?_⟩,
    fun q => text_of_isName_eq h entry⟩
  · have htype := hsame this
    rw [Tree.typeOf_this hq, Tree.typeOf_this (halike.qualifierOfThis? this ▸ hq)] at htype
    exact congrArg StaticType.text (Option.some.inj htype)
  · exact halike.typeOf hwords fun this _ => hqualifiers this

/-- A comment and blanks inside a qualified `this` change nothing for the variable that it
initializes. -/
theorem typeOf_ignores_comment :
    let source := Bytes.ofString "var x=A.this;f(x);"
    let source' := Bytes.ofString "var x = A /* outer */ . this; f(x);"
    let t := Tree.parse .statements source
    let u := Tree.parse .statements source'
    (significant source).map Token.lexeme = (significant source').map Token.lexeme ∧
      (∀ decl < t.size, t.isA .fieldDecl decl = true → t.infersTypes decl = false) ∧
      (∀ this, Relation.ReflTransGen t.Asks this 21 → t.SameQualifier u this) ∧
      t.typeOf 21 = some ⟨Bytes.ofString "A"⟩ ∧ u.typeOf 21 = some ⟨Bytes.ofString "A"⟩ := by
  intro source source' t u
  have hfacts : (significant source).map Token.lexeme = (significant source').map Token.lexeme ∧
      (∀ decl < t.size, t.isA .fieldDecl decl = true → t.infersTypes decl = false) ∧
      (t.step 21).operands = [7] ∧ (t.step 7).operands = [] ∧
      t.qualifierOfThis? 21 = none ∧ t.qualifierOfThis? 7 = some 8 ∧
      t.isA .referenceExpr 8 = true ∧ (t.children 8).length = 2 ∧
      t.typeOf 21 = some ⟨Bytes.ofString "A"⟩ := by decide +kernel
  obtain ⟨hlexemes, hfields, hfirst, hsecond, hnone, hsome, hreference, hlength, htype⟩ := hfacts
  obtain ⟨-, hsame, -, hnames⟩ := typeOf_ignores_layout hlexemes .statements hfields
  have hqualifiers : ∀ this, Relation.ReflTransGen t.Asks this 21 → t.SameQualifier u this := by
    intro this hthis q hq
    rcases hthis.cases_tail with rfl | ⟨e, hthis, hasks⟩
    · cases hnone.symm.trans hq
    · rw [Tree.Asks, hfirst] at hasks
      obtain rfl := List.mem_singleton.mp hasks
      rcases hthis.cases_tail with rfl | ⟨e, -, hasks⟩
      · cases hsome.symm.trans hq
        exact hnames 8 ⟨hreference, hlength⟩
      · rw [Tree.Asks, hsecond] at hasks
        cases hasks
  exact ⟨hlexemes, hfields, hqualifiers, htype, (hsame 21 hqualifiers).symm.trans htype⟩

/-- The type of a `this` that is qualified by more than a name has the blanks of the source. -/
theorem typeOf_heeds_layout :
    let source := Bytes.ofString "a.b.this;"
    let source' := Bytes.ofString "a. b.this;"
    let t := Tree.parse .statements source
    let u := Tree.parse .statements source'
    (significant source).map Token.lexeme = (significant source').map Token.lexeme ∧
      (∀ decl < t.size, t.isA .fieldDecl decl = true → t.infersTypes decl = false) ∧
      t.typeOf 2 = some ⟨Bytes.ofString "a.b"⟩ ∧ u.typeOf 2 = some ⟨Bytes.ofString "a. b"⟩ := by
  decide +kernel

end Entry

end DotCompletion
