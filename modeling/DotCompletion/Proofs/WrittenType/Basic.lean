import DotCompletion.Proofs.Expression.Basic
import DotCompletion.Typing.Scope

/-!
# Types as they are written

Primitive types and dotted names, with type arguments behind any part of a name and with
dimensions. A type is printed as a row of lexemes, has a sketch, and has a text with uniform
spaces. The text comes out when the tokens of the type are put one behind the other
(`WrittenType.foldl_lexemes`), whatever type it is.
-/

namespace DotCompletion

open Lexeme (sign)

/-- The primitive types. -/
def WrittenType.primitives : List TokenKind :=
  [.kwBoolean, .kwByte, .kwShort, .kwInt, .kwLong, .kwChar, .kwFloat, .kwDouble]

theorem WrittenType.mem_primitives {k : TokenKind} :
    k ∈ WrittenType.primitives ↔ k ∈ TokenKind.primitives := by
  simp only [WrittenType.primitives, TokenKind.primitives, List.mem_cons, List.not_mem_nil]
  tauto

/-- The words between a question mark and a bound. -/
def TypeArgument.bounds : List TokenKind := [.kwExtends, .kwSuper]

mutual

/-- A type, with a number of dimensions. -/
inductive WrittenType where
  | primitive (k : Expr.Sign WrittenType.primitives) (dims : Nat)
  | named (n : TypeName) (dims : Nat)

/-- Names with dots between them, each perhaps with type arguments. -/
inductive TypeName where
  | last (x : Expr.Name) (args : List TypeArgument)
  | dotted (x : Expr.Name) (args : List TypeArgument) (rest : TypeName)

/-- A type or a wildcard. -/
inductive TypeArgument where
  | exact (t : WrittenType)
  | any
  | bounded (word : Expr.Sign TypeArgument.bounds) (t : WrittenType)

end

namespace WrittenType

/-- Pairs of square brackets. -/
def dimensions (dims : Nat) : List Lexeme :=
  (List.replicate dims [sign .lbracket, sign .rbracket]).flatten

end WrittenType

/-! ## Lexemes -/

mutual

/-- The type as it is printed. -/
def WrittenType.lexemes : WrittenType → List Lexeme
  | .primitive k dims => sign k :: WrittenType.dimensions dims
  | .named n dims => n.lexemes ++ WrittenType.dimensions dims

def TypeName.lexemes : TypeName → List Lexeme
  | .last x args => ⟨.identifier, x⟩ :: TypeArgument.listed args
  | .dotted x args rest =>
    ⟨.identifier, x⟩ :: (TypeArgument.listed args ++ sign .dot :: rest.lexemes)

def TypeArgument.lexemes : TypeArgument → List Lexeme
  | .exact t => t.lexemes
  | .any => [sign .question]
  | .bounded word t => sign .question :: sign word :: t.lexemes

/-- Arguments in angle brackets; nothing if there are none. -/
def TypeArgument.listed : List TypeArgument → List Lexeme
  | [] => []
  | a :: rest => sign .less :: (a.lexemes ++ (TypeArgument.more rest ++ [sign .greater]))

/-- Arguments with a comma in front of each. -/
def TypeArgument.more : List TypeArgument → List Lexeme
  | [] => []
  | a :: rest => sign .comma :: (a.lexemes ++ TypeArgument.more rest)

end

/-- The kinds of tokens with which a type begins. -/
def WrittenType.starts : List TokenKind := .identifier :: WrittenType.primitives

/-- The kinds of tokens with which a type argument begins. -/
def TypeArgument.starts : List TokenKind := .question :: WrittenType.starts

theorem TypeName.exists_first (n : TypeName) :
    ∃ x row, n.lexemes = ⟨.identifier, x⟩ :: row := by
  cases n with
  | last x args => exact ⟨x, _, rfl⟩
  | dotted x args rest => exact ⟨x, _, rfl⟩

theorem WrittenType.exists_first (t : WrittenType) :
    ∃ l row, t.lexemes = l :: row ∧ l.kind ∈ WrittenType.starts := by
  cases t with
  | primitive k dims => exact ⟨_, _, rfl, List.mem_cons_of_mem _ k.2⟩
  | named n dims =>
      obtain ⟨x, row, hrow⟩ := n.exists_first
      rw [WrittenType.lexemes, hrow]
      exact ⟨_, _, rfl, List.mem_cons_self⟩

theorem TypeArgument.exists_first (a : TypeArgument) :
    ∃ l row, a.lexemes = l :: row ∧ l.kind ∈ TypeArgument.starts := by
  cases a with
  | exact t =>
      obtain ⟨l, row, hrow, hl⟩ := t.exists_first
      exact ⟨l, row, hrow, List.mem_cons_of_mem _ hl⟩
  | any => exact ⟨_, _, rfl, List.mem_cons_self⟩
  | bounded word t => exact ⟨_, _, rfl, List.mem_cons_self⟩

/-! ## Sketches -/

mutual

/-- The tree of the type. -/
def WrittenType.sketch : WrittenType → Sketch
  | .primitive k dims =>
    .node .typeUse (.token (sign k) :: (WrittenType.dimensions dims).map .token)
  | .named n dims => .node .typeUse (n.sketches ++ (WrittenType.dimensions dims).map .token)

def TypeName.sketches : TypeName → List Sketch
  | .last x args => .leaf .identifier ⟨.identifier, x⟩ :: TypeArgument.sketches args
  | .dotted x args rest =>
    .leaf .identifier ⟨.identifier, x⟩ ::
      (TypeArgument.sketches args ++ .token (sign .dot) :: rest.sketches)

def TypeArgument.sketch : TypeArgument → Sketch
  | .exact t => t.sketch
  | .any => .node .typeUse [.token (sign .question)]
  | .bounded word t => .node .typeUse [.token (sign .question), .token (sign word), t.sketch]

/-- The tree of arguments in angle brackets; nothing if there are none. -/
def TypeArgument.sketches : List TypeArgument → List Sketch
  | [] => []
  | a :: rest =>
    [.node .typeArguments (.token (sign .less) :: a.sketch ::
      (TypeArgument.moreSketches rest ++ [.token (sign .greater)]))]

/-- The trees of arguments with a comma in front of each. -/
def TypeArgument.moreSketches : List TypeArgument → List Sketch
  | [] => []
  | a :: rest => .token (sign .comma) :: a.sketch :: TypeArgument.moreSketches rest

end

/-! ## Texts -/

mutual

/-- The text of the type: dots between names, a comma and a space between arguments, single
spaces around the words of a wildcard. -/
def WrittenType.text : WrittenType → Bytes
  | .primitive k dims => (StaticType.named k.1.name |>.arrayOf dims).text
  | .named n dims => (StaticType.arrayOf ⟨n.text⟩ dims).text

def TypeName.text : TypeName → Bytes
  | .last x args => x ++ TypeArgument.listText args
  | .dotted x args rest => x ++ (TypeArgument.listText args ++ (Bytes.ofString "." ++ rest.text))

def TypeArgument.text : TypeArgument → Bytes
  | .exact t => t.text
  | .any => Bytes.ofString "?"
  | .bounded word t =>
    Bytes.ofString "? " ++ (Bytes.ofString word.1.name ++ (Bytes.ofString " " ++ t.text))

def TypeArgument.listText : List TypeArgument → Bytes
  | [] => []
  | a :: rest =>
    Bytes.ofString "<" ++ (a.text ++ (TypeArgument.moreText rest ++ Bytes.ofString ">"))

def TypeArgument.moreText : List TypeArgument → Bytes
  | [] => []
  | a :: rest => Bytes.ofString ", " ++ (a.text ++ TypeArgument.moreText rest)

end

/-! ## The text is that of the lexemes -/

namespace Lexeme

/-- The space in front of a word, if what stands there is a word or a question mark. -/
def gap (text : Bytes) : Bytes :=
  if (text.getLast?.map fun c => Scan.isWordByte c || c == '?'.toUInt8).getD false then
    [' '.toUInt8]
  else []

/-- Append a lexeme to the text of a type, as `Tree.appendToken` does with tokens. -/
def append (text : Bytes) (l : Lexeme) : Bytes :=
  Tree.appendToken text ⟨l.kind, default, l.text⟩

theorem append_word {l : Lexeme} (text : Bytes)
    (hword : ∀ b ∈ l.text.head?, Scan.isWordByte b = true) (hne : l.text ≠ [])
    (hkind : l.kind ≠ .comma) : append text l = text ++ (gap text ++ l.text) := by
  obtain ⟨b, tail, htext⟩ := List.exists_cons_of_ne_nil hne
  rw [htext] at hword
  rw [append, Tree.appendToken]
  simp only [htext, hword b rfl, Bool.true_and, hkind, if_false, List.append_nil, gap]
  rw [List.append_assoc]

theorem append_sign {l : Lexeme} (text : Bytes)
    (hword : ∀ b ∈ l.text.head?, Scan.isWordByte b = false) (hkind : l.kind ≠ .comma) :
    append text l = text ++ l.text := by
  rw [append, Tree.appendToken]
  cases htext : l.text with
  | nil => rw [List.append_nil]
  | cons b tail =>
      rw [htext] at hword
      simp [hword b rfl, hkind]

theorem append_name (text : Bytes) (x : Expr.Name) :
    append text ⟨.identifier, x⟩ = text ++ (gap text ++ x) :=
  append_word text (fun b hb => by simp [Scan.isWordByte, x.2.letter b hb]) x.2.text_ne nofun

/-- The words of types. -/
theorem append_keyword (text : Bytes) {k : TokenKind}
    (h : k ∈ WrittenType.primitives ++ TypeArgument.bounds) :
    append text (sign k) = text ++ (gap text ++ Bytes.ofString k.name) := by
  have hwords : ∀ k ∈ WrittenType.primitives ++ TypeArgument.bounds,
      (∀ b ∈ (sign k).text.head?, Scan.isWordByte b = true) ∧ (sign k).text ≠ [] ∧ k ≠ .comma := by
    decide
  obtain ⟨hword, hne, hkind⟩ := hwords k h
  exact append_word text hword hne hkind

/-- The signs of types, without the comma. -/
def typeSigns : List TokenKind := [.less, .greater, .dot, .question, .lbracket, .rbracket]

theorem append_typeSign (text : Bytes) {k : TokenKind} (h : k ∈ typeSigns) :
    append text (sign k) = text ++ Bytes.ofString k.name := by
  have hsigns : ∀ k ∈ typeSigns,
      (∀ b ∈ (sign k).text.head?, Scan.isWordByte b = false) ∧ k ≠ .comma := by decide
  obtain ⟨hword, hkind⟩ := hsigns k h
  exact append_sign text hword hkind

theorem append_comma (text : Bytes) : append text (sign .comma) = text ++ Bytes.ofString ", " := by
  have hcomma : (sign .comma).text = [','.toUInt8] := by decide
  have hword : Scan.isWordByte ','.toUInt8 = false := by decide
  rw [append, Tree.appendToken]
  simp only [hcomma, hword, Bool.false_and, Bool.false_eq_true, if_false, List.append_nil]
  exact List.append_assoc ..

/-- A space comes behind some bytes only, and no other byte counts. -/
theorem gap_append {text last : Bytes} {c : UInt8} (h : last.getLast? = some c) :
    gap (text ++ last) = gap [c] := by
  rw [gap, List.getLast?_append, h]
  rfl

end Lexeme

open Lexeme (append gap)

theorem WrittenType.foldl_dimensions (dims : Nat) (text : Bytes) :
    (WrittenType.dimensions dims).foldl append text =
      text ++ (List.replicate dims StaticType.brackets).flatten := by
  induction dims generalizing text with
  | zero => exact (List.append_nil _).symm
  | succ dims ih =>
      have hpair : append (append text (sign .lbracket)) (sign .rbracket) =
          text ++ StaticType.brackets := by
        rw [Lexeme.append_typeSign _ (by decide), Lexeme.append_typeSign _ (by decide),
          List.append_assoc]
        rfl
      rw [WrittenType.dimensions, List.replicate_succ, List.flatten_cons, List.foldl_append,
        ← WrittenType.dimensions, List.replicate_succ, List.flatten_cons, ← List.append_assoc,
        ← hpair]
      exact ih _

mutual

/-- The lexemes of a type, appended one after the other, make up its text. -/
theorem WrittenType.foldl_lexemes (t : WrittenType) (text : Bytes) :
    t.lexemes.foldl append text = text ++ (gap text ++ t.text) := by
  match t with
  | .primitive k dims =>
      rw [WrittenType.lexemes, List.foldl_cons,
        Lexeme.append_keyword _ (List.mem_append_left _ k.2), WrittenType.foldl_dimensions,
        WrittenType.text]
      simp [StaticType.arrayOf, StaticType.named]
  | .named n dims =>
      rw [WrittenType.lexemes, List.foldl_append, n.foldl_lexemes, WrittenType.foldl_dimensions,
        WrittenType.text]
      simp [StaticType.arrayOf]

theorem TypeName.foldl_lexemes (n : TypeName) (text : Bytes) :
    n.lexemes.foldl append text = text ++ (gap text ++ n.text) := by
  match n with
  | .last x args =>
      rw [TypeName.lexemes, List.foldl_cons, Lexeme.append_name, TypeArgument.foldl_listed,
        TypeName.text]
      simp only [List.append_assoc]
  | .dotted x args rest =>
      have hdot : ∀ text : Bytes, gap (text ++ Bytes.ofString ".") = [] :=
        fun text => Lexeme.gap_append (c := '.'.toUInt8) (by decide)
      rw [TypeName.lexemes, List.foldl_cons, Lexeme.append_name, List.foldl_append,
        TypeArgument.foldl_listed, List.foldl_cons, Lexeme.append_typeSign _ (by decide),
        rest.foldl_lexemes, TypeName.text, show TokenKind.dot.name = "." from rfl, hdot]
      simp only [List.append_assoc, List.nil_append]

theorem TypeArgument.foldl_lexemes (a : TypeArgument) (text : Bytes) (h : gap text = []) :
    a.lexemes.foldl append text = text ++ a.text := by
  match a with
  | .exact t =>
      rw [TypeArgument.lexemes, t.foldl_lexemes, h, TypeArgument.text]
      rfl
  | .any =>
      rw [TypeArgument.lexemes, List.foldl_cons, Lexeme.append_typeSign _ (by decide)]
      rfl
  | .bounded word t =>
      have hmark : append text (sign .question) = text ++ Bytes.ofString "?" :=
        Lexeme.append_typeSign _ (by decide)
      have hbefore : gap (text ++ Bytes.ofString "?") = Bytes.ofString " " :=
        Lexeme.gap_append (c := '?'.toUInt8) (by decide)
      have hbehind : ∀ text : Bytes, gap (text ++ Bytes.ofString word.1.name) =
          Bytes.ofString " " := by
        have hwords : ∀ k ∈ TypeArgument.bounds, ∃ c ∈ ['s'.toUInt8, 'r'.toUInt8],
            (Bytes.ofString k.name).getLast? = some c ∧ gap [c] = Bytes.ofString " " := by decide
        obtain ⟨c, -, hlast, hgap⟩ := hwords word.1 word.2
        exact fun text => (Lexeme.gap_append hlast).trans hgap
      have hopen : Bytes.ofString "? " = Bytes.ofString "?" ++ Bytes.ofString " " := by decide
      rw [TypeArgument.lexemes, List.foldl_cons, List.foldl_cons, hmark,
        Lexeme.append_keyword _ (List.mem_append_right _ word.2), hbefore, t.foldl_lexemes,
        ← List.append_assoc _ (Bytes.ofString " "), hbehind, TypeArgument.text, hopen]
      simp only [List.append_assoc]

theorem TypeArgument.foldl_listed (args : List TypeArgument) (text : Bytes) :
    (TypeArgument.listed args).foldl append text = text ++ TypeArgument.listText args := by
  match args with
  | [] => exact (List.append_nil _).symm
  | a :: rest =>
      have hless : append text (sign .less) = text ++ Bytes.ofString "<" :=
        Lexeme.append_typeSign _ (by decide)
      have hgap : gap (text ++ Bytes.ofString "<") = [] :=
        Lexeme.gap_append (c := '<'.toUInt8) (by decide)
      have hgreater : ∀ text, append text (sign .greater) = text ++ Bytes.ofString ">" :=
        fun text => Lexeme.append_typeSign text (by decide)
      rw [TypeArgument.listed, List.foldl_cons, hless, List.foldl_append, a.foldl_lexemes _ hgap,
        List.foldl_append, TypeArgument.foldl_more, List.foldl_cons, List.foldl_nil, hgreater,
        TypeArgument.listText]
      simp only [List.append_assoc]

theorem TypeArgument.foldl_more (args : List TypeArgument) (text : Bytes) :
    (TypeArgument.more args).foldl append text = text ++ TypeArgument.moreText args := by
  match args with
  | [] => exact (List.append_nil _).symm
  | a :: rest =>
      have hcomma : gap (text ++ Bytes.ofString ", ") = [] :=
        Lexeme.gap_append (c := ' '.toUInt8) (by decide)
      rw [TypeArgument.more, List.foldl_cons, Lexeme.append_comma, List.foldl_append,
        a.foldl_lexemes _ hcomma, TypeArgument.foldl_more, TypeArgument.moreText]
      simp only [List.append_assoc]

end

end DotCompletion
