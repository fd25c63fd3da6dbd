import DotCompletion.Proofs.Text.Ascii
import DotCompletion.Proofs.Text.Encoding
import DotCompletion.Proofs.WrittenType.Basic

/-!
# Types without their arguments

Type arguments are dropped by counting angle brackets in the text of a type. In the text of a
written type they close as they open, at every depth, so what is left is the text of the type
without the arguments of its names (`StaticType.erasure_text`). A name without type arguments means
the type if it is what is left, or the end of it behind a dot: the text of a type whose name has
lost parts in front (`StaticType.erasure_written`).
-/

namespace DotCompletion

/-! ## Without arguments, and without parts in front -/

/-- The name without the type arguments behind any of its parts. -/
def TypeName.erased : TypeName → TypeName
  | .last x _ => .last x []
  | .dotted x _ rest => .dotted x [] rest.erased

/-- The type without type arguments. -/
def WrittenType.erased : WrittenType → WrittenType
  | .primitive k dims => .primitive k dims
  | .named n dims => .named n.erased dims

/-- The name, and what of it stands behind each of its dots. -/
def TypeName.endings : TypeName → List TypeName
  | .last x args => [.last x args]
  | .dotted x args rest => .dotted x args rest :: rest.endings

/-- The type, and the types whose names have lost parts in front. -/
def WrittenType.endings : WrittenType → List WrittenType
  | .primitive k dims => [.primitive k dims]
  | .named n dims => n.endings.map (.named · dims)

@[simp] theorem TypeName.text_erased_last (x : Expr.Name) (args : List TypeArgument) :
    (TypeName.last x args).erased.text = x := by
  rw [erased, text]
  exact List.append_nil _

@[simp] theorem TypeName.text_erased_dotted (x : Expr.Name) (args : List TypeArgument)
    (rest : TypeName) :
    (TypeName.dotted x args rest).erased.text = x ++ (Bytes.ofString "." ++ rest.erased.text) := by
  rw [erased, text]
  rfl

/-! ## Stray bytes -/

namespace Utf8

/-- The bytes with the encoding of U+FFFD in place of every stray byte. -/
def mended (bytes : Bytes) : Bytes := Bytes.ofString (toText bytes)

theorem mended_eq (bytes : Bytes) :
    mended bytes = (pieces bytes).flatMap fun p => String.utf8EncodeChar p.toChar := by
  rw [mended, Bytes.ofString, toText, String.toList_ofList, List.flatMap_map]

theorem mended_append {front back : Bytes} (h : Bytes.Seam front back) :
    mended (front ++ back) = mended front ++ mended back := by
  rw [mended_eq, mended_eq, mended_eq, pieces_append h, List.flatMap_append]

/-- In a text no byte is stray. -/
theorem mended_ofString (text : String) : mended (Bytes.ofString text) = Bytes.ofString text := by
  rw [mended, toText_ofString]

end Utf8

open Utf8 (mended pieces)

/-! ## Angle brackets in a text -/

namespace StaticType

/-- Angle brackets close in the text as they open: at depth 0 it leaves what is `shown`, deeper it
leaves nothing, and what follows it is read at the depth of its beginning. -/
def Leaves (text shown : Bytes) : Prop :=
  ∀ (depth : Nat) (rest : List Piece), outside depth (pieces text ++ rest) =
    (if depth = 0 then shown else []) ++ outside depth rest

namespace Leaves

variable {text shown front back left right : Bytes}

theorem erasure (h : Leaves text shown) : StaticType.erasure ⟨text⟩ = ⟨shown⟩ := by
  have hall := h 0 []
  rw [List.append_nil, if_pos rfl, outside, List.append_nil] at hall
  exact congrArg StaticType.mk hall

theorem nil : Leaves [] [] := by
  intro depth rest
  rw [pieces, ite_self]
  rfl

theorem append (h : Leaves front left) (h' : Leaves back right) (hseam : Bytes.Seam front back) :
    Leaves (front ++ back) (left ++ right) := by
  intro depth rest
  rw [Utf8.pieces_append hseam, List.append_assoc, h, h', ← List.append_assoc]
  by_cases hdepth : depth = 0
  · simp only [hdepth, if_true]
  · simp only [hdepth, if_false, List.append_nil]

/-- A text without angle brackets is left as it is. -/
theorem plain (h : ∀ b ∈ text, b ≠ '<'.toUInt8 ∧ b ≠ '>'.toUInt8) :
    Leaves text (mended text) := by
  have hpieces : ∀ p ∈ pieces text, p ≠ .char '<' ∧ p ≠ .char '>' := by
    intro p hp
    constructor
    · rintro rfl
      exact (h _ (Utf8.mem_of_mem_pieces hp (by decide))).1 rfl
    · rintro rfl
      exact (h _ (Utf8.mem_of_mem_pieces hp (by decide))).2 rfl
  intro depth rest
  rw [Utf8.mended_eq]
  generalize pieces text = row at hpieces
  induction row with
  | nil => simp
  | cons p row ih =>
      obtain ⟨⟨hopens, hcloses⟩, hrow⟩ := List.forall_mem_cons.mp hpieces
      rw [List.cons_append, outside, if_neg hopens, if_neg hcloses, ih hrow, List.flatMap_cons]
      by_cases hdepth : depth = 0
      · simp only [hdepth, Int.natCast_eq_zero, if_true, List.append_assoc]
      · simp only [hdepth, Int.natCast_eq_zero, if_false]

/-- In angle brackets a text is read one deeper, where it leaves nothing. -/
theorem angles (h : Leaves text shown) :
    Leaves (Bytes.ofString "<" ++ (text ++ Bytes.ofString ">")) [] := by
  have hless : pieces (Bytes.ofString "<" ++ (text ++ Bytes.ofString ">")) =
      .char '<' :: (pieces text ++ [Piece.char '>']) := by
    have hseam : Bytes.Seam text (Bytes.ofString ">") := .of_back (by decide) _ _
    have hopen : Bytes.Seam (Bytes.ofString "<") (text ++ Bytes.ofString ">") :=
      .of_front (by decide) [] _
    rw [Utf8.pieces_append hopen, Utf8.pieces_append hseam, Utf8.pieces_ofString,
      Utf8.pieces_ofString]
    rfl
  intro depth rest
  have hdeeper : (depth : Int) + 1 = (depth + 1 : Nat) := rfl
  rw [hless, List.cons_append, outside, if_pos rfl, hdeeper, List.append_assoc, h,
    if_neg (Nat.succ_ne_zero depth), List.nil_append, List.singleton_append, outside,
    if_neg (by decide), if_pos rfl, ← hdeeper, Int.add_sub_cancel, ite_self, List.nil_append]

end Leaves

end StaticType

open StaticType (Leaves)

/-! ## Angle brackets in the text of a type -/

/-- What separates the parts of a type is no part of a name. -/
theorem Expr.Name.not_mem (x : Expr.Name) {b : UInt8} (hb : Scan.isWordByte b = false) :
    b ∉ x.1 := by
  intro hmem
  rw [x.2.word b hmem] at hb
  cases hb

theorem Expr.Name.leaves (x : Expr.Name) : Leaves x (mended x) := by
  refine .plain fun b hb => ⟨?_, ?_⟩
  all_goals
    rintro rfl
    exact x.not_mem (by decide) hb

namespace WrittenType

/-- The text of pairs of square brackets. -/
def dimsText (dims : Nat) : Bytes := (List.replicate dims StaticType.brackets).flatten

@[simp] theorem text_primitive (k : Expr.Sign WrittenType.primitives) (dims : Nat) :
    (primitive k dims).text = Bytes.ofString k.1.name ++ dimsText dims := by
  rw [text]
  rfl

@[simp] theorem text_named (n : TypeName) (dims : Nat) :
    (named n dims).text = n.text ++ dimsText dims := by
  rw [text]
  rfl

theorem mem_brackets {dims : Nat} {b : UInt8} (h : b ∈ dimsText dims) :
    b ∈ StaticType.brackets := by
  obtain ⟨row, hrow, hb⟩ := List.mem_flatten.mp h
  rwa [List.eq_of_mem_replicate hrow] at hb

theorem dimsText_seam (front : Bytes) (dims : Nat) : Bytes.Seam front (dimsText dims) := by
  have hascii : ∀ b ∈ StaticType.brackets, b < 0x80 := by decide
  exact .of_head (fun z hz => hascii z (mem_brackets (List.mem_of_mem_head? hz))) front

theorem dimsText_leaves (dims : Nat) : Leaves (dimsText dims) (mended (dimsText dims)) := by
  have hplain : ∀ b ∈ StaticType.brackets, b ≠ '<'.toUInt8 ∧ b ≠ '>'.toUInt8 := by decide
  exact .plain fun b hb => hplain b (mem_brackets hb)

theorem dot_not_mem_dimsText (dims : Nat) : '.'.toUInt8 ∉ dimsText dims :=
  fun hmem => absurd (mem_brackets hmem) (by decide)

end WrittenType

theorem TypeArgument.head_listText (args : List TypeArgument) (behind : Bytes)
    (h : ∀ z ∈ behind.head?, z < 0x80) : ∀ z ∈ (listText args ++ behind).head?, z < 0x80 := by
  cases args with
  | nil => exact h
  | cons a rest =>
      rintro _ ⟨⟩
      decide

theorem TypeArgument.head_moreText (args : List TypeArgument) :
    ∀ z ∈ (moreText args).head?, z < 0x80 := by
  cases args with
  | nil => simp [moreText]
  | cons a rest =>
      rintro _ ⟨⟩
      decide

open WrittenType (dimsText dimsText_seam dimsText_leaves)

mutual

/-- The brackets of a type close as they open, and what it leaves is the type without
arguments. -/
theorem WrittenType.leaves (t : WrittenType) : Leaves t.text (mended t.erased.text) := by
  match t with
  | .primitive k dims =>
      have hplain : ∀ k ∈ WrittenType.primitives, ∀ b ∈ Bytes.ofString k.name,
          b ≠ '<'.toUInt8 ∧ b ≠ '>'.toUInt8 := by decide
      have hname : Leaves (Bytes.ofString k.1.name) (mended (Bytes.ofString k.1.name)) :=
        .plain (hplain k.1 k.2)
      have h := hname.append (dimsText_leaves dims) (dimsText_seam _ _)
      rwa [← Utf8.mended_append (dimsText_seam _ _)] at h
  | .named n dims =>
      have h := n.leaves.append (dimsText_leaves dims) (dimsText_seam _ _)
      rwa [← Utf8.mended_append (dimsText_seam _ _)] at h

theorem TypeName.leaves (n : TypeName) : Leaves n.text (mended n.erased.text) := by
  match n with
  | .last x args =>
      have hhead := TypeArgument.head_listText args [] (by simp)
      rw [List.append_nil] at hhead
      have h := x.leaves.append (TypeArgument.leaves_listed args) (.of_head hhead _)
      rwa [TypeName.text_erased_last, ← List.append_nil (mended x.1)]
  | .dotted x args rest =>
      have hsign : Leaves (Bytes.ofString ".") (mended (Bytes.ofString ".")) :=
        .plain (by decide)
      have hdot : ∀ behind, ∀ z ∈ (Bytes.ofString "." ++ behind).head?, z < 0x80 := by
        rintro _ _ ⟨⟩
        decide
      have hbehind : ∀ behind, Bytes.Seam (Bytes.ofString ".") behind := .of_front (by decide) []
      have hrest := hsign.append rest.leaves (hbehind _)
      have hargs := (TypeArgument.leaves_listed args).append hrest (.of_head (hdot _) _)
      have h := x.leaves.append hargs (.of_head (TypeArgument.head_listText args _ (hdot _)) _)
      rw [TypeName.text_erased_dotted, Utf8.mended_append (.of_head (hdot _) _),
        Utf8.mended_append (hbehind _)]
      exact h

/-- The brackets of an argument close as they open. -/
theorem TypeArgument.leaves (a : TypeArgument) : ∃ shown, Leaves a.text shown := by
  match a with
  | .exact t => exact ⟨_, t.leaves⟩
  | .any => exact ⟨_, .plain (by decide)⟩
  | .bounded word t =>
      have hplain : ∀ k ∈ TypeArgument.bounds, ∀ b ∈ Bytes.ofString k.name,
          b ≠ '<'.toUInt8 ∧ b ≠ '>'.toUInt8 := by decide
      have hopen : Leaves (Bytes.ofString "? ") (mended (Bytes.ofString "? ")) :=
        .plain (by decide)
      have hword : Leaves (Bytes.ofString word.1.name) (mended (Bytes.ofString word.1.name)) :=
        .plain (hplain word.1 word.2)
      have hspace : Leaves (Bytes.ofString " ") (mended (Bytes.ofString " ")) :=
        .plain (by decide)
      have hbound := hspace.append t.leaves (.of_front (by decide) [] _)
      have hrest := hword.append hbound (.of_back (by decide) _ _)
      exact ⟨_, hopen.append hrest (.of_front (by decide) ['?'.toUInt8] _)⟩

/-- Arguments in angle brackets leave nothing. -/
theorem TypeArgument.leaves_listed (args : List TypeArgument) :
    Leaves (TypeArgument.listText args) [] := by
  match args with
  | [] => exact .nil
  | a :: rest =>
      obtain ⟨first, ha⟩ := a.leaves
      obtain ⟨more, hmore⟩ := TypeArgument.leaves_more rest
      have h := (ha.append hmore (.of_head (TypeArgument.head_moreText rest) _)).angles
      rwa [List.append_assoc] at h

theorem TypeArgument.leaves_more (args : List TypeArgument) :
    ∃ shown, Leaves (TypeArgument.moreText args) shown := by
  match args with
  | [] => exact ⟨_, .nil⟩
  | a :: rest =>
      obtain ⟨first, ha⟩ := a.leaves
      obtain ⟨more, hmore⟩ := TypeArgument.leaves_more rest
      have hcomma : Leaves (Bytes.ofString ", ") (mended (Bytes.ofString ", ")) :=
        .plain (by decide)
      have hrest := ha.append hmore (.of_head (TypeArgument.head_moreText rest) _)
      exact ⟨_, hcomma.append hrest (.of_front (by decide) [','.toUInt8] _)⟩

end

/-! ## Endings of a text -/

/-- Behind the first separator of a text begins all that stands behind any separator. -/
theorem Bytes.cons_suffix_append_iff {sep : UInt8} {front back text : Bytes} (h : sep ∉ front) :
    sep :: text <:+ front ++ sep :: back ↔ text = back ∨ sep :: text <:+ back := by
  induction front with
  | nil => rw [List.nil_append, List.suffix_cons_iff, List.cons.injEq, eq_self, true_and]
  | cons b front ih =>
      obtain ⟨hb, hfront⟩ := not_or.mp (mt List.mem_cons.mpr h)
      rw [List.cons_append, List.suffix_cons_iff, List.cons.injEq, ih hfront]
      exact or_iff_right fun heq => hb heq.1

/-- The texts of the endings of a name are the text of the name and what stands behind its dots. -/
theorem TypeName.exists_ending_iff (n : TypeName) {behind : Bytes} (h : '.'.toUInt8 ∉ behind)
    (text : Bytes) : (∃ e ∈ n.erased.endings, text = e.text ++ behind) ↔
      text = n.erased.text ++ behind ∨ '.'.toUInt8 :: text <:+ n.erased.text ++ behind := by
  match n with
  | .last x args =>
      have hnot : ¬ '.'.toUInt8 :: text <:+ (TypeName.last x args).erased.text ++ behind := by
        intro hsuffix
        have hmem := hsuffix.subset List.mem_cons_self
        rw [text_erased_last, List.mem_append] at hmem
        exact hmem.elim (x.not_mem (by decide)) h
      rw [or_iff_left hnot, erased, endings]
      simp
  | .dotted x args rest =>
      have hdot : '.'.toUInt8 ∉ x.1 := x.not_mem (by decide)
      have htext : (TypeName.dotted x args rest).erased.text ++ behind =
          x ++ '.'.toUInt8 :: (rest.erased.text ++ behind) := by
        rw [text_erased_dotted, List.append_assoc]
        rfl
      rw [htext, Bytes.cons_suffix_append_iff hdot, ← rest.exists_ending_iff h, ← htext, erased,
        endings]
      simp

/-- The texts of the endings of a type are the text of the type and what stands behind its dots. -/
theorem WrittenType.exists_ending_iff (t : WrittenType) (text : Bytes) :
    (∃ e ∈ t.erased.endings, text = e.text) ↔
      text = t.erased.text ∨ '.'.toUInt8 :: text <:+ t.erased.text := by
  match t with
  | .primitive k dims =>
      have hnames : ∀ k ∈ WrittenType.primitives, '.'.toUInt8 ∉ Bytes.ofString k.name := by
        decide +kernel
      have hnot : ¬ '.'.toUInt8 :: text <:+ Bytes.ofString k.1.name ++ dimsText dims := by
        intro hsuffix
        rcases List.mem_append.mp (hsuffix.subset List.mem_cons_self) with hmem | hmem
        · exact hnames k.1 k.2 hmem
        · exact dot_not_mem_dimsText dims hmem
      rw [erased, endings, text_primitive, or_iff_left hnot]
      simp
  | .named n dims =>
      have hname := n.exists_ending_iff (dot_not_mem_dimsText dims) text
      simpa [erased, endings] using hname

/-! ## Names of types -/

/-- `geo.Größe<Part, Größe<? extends long[]>>.Part<long>[]` -/
def WrittenType.layered : WrittenType :=
  let geo : Expr.Name := ⟨Bytes.ofString "geo", by decide⟩
  let size : Expr.Name := ⟨Bytes.ofString "Größe", by decide⟩
  let part : Expr.Name := ⟨Bytes.ofString "Part", by decide⟩
  let long (dims : Nat) : WrittenType := .primitive ⟨.kwLong, by decide⟩ dims
  let bounded := TypeName.last size [.bounded ⟨.kwExtends, by decide⟩ (long 1)]
  .named (.dotted geo []
    (.dotted size [.exact (.named (.last part []) 0), .exact (.named bounded 0)]
      (.last part [.exact (long 0)]))) 1

namespace StaticType

open WrittenType (layered)

/-- No angle bracket is left of any text: a stray byte is shown as another character. -/
theorem less_not_mem_outside (depth : Int) (row : List Piece) :
    '<'.toUInt8 ∉ outside depth row := by
  fun_induction outside depth row with
  | case1 => exact List.not_mem_nil
  | case2 depth rest ih => exact ih
  | case3 depth rest hopens ih => exact ih
  | case4 p rest hopens hcloses ih =>
      rw [List.mem_append, not_or]
      refine ⟨fun hmem => hopens ?_, ih⟩
      have hchar : p.toChar = '<' := eq_of_mem_utf8EncodeChar (by decide) hmem
      cases p with
      | char c => exact congrArg Piece.char hchar
      | stray b => exact absurd hchar (by decide : '\uFFFD' ≠ '<')
  | case5 depth p rest hopens hcloses hdepth ih => exact ih

/-- A name without type arguments means a type if it is the text of the type, or what is left of it
without arguments, or stands there behind a dot. -/
theorem isNamed_iff {t : StaticType} {name : String}
    (h : '<'.toUInt8 ∉ Bytes.ofString name) : t.isNamed name = true ↔
      t.text = Bytes.ofString name ∨ t.erasure.text = Bytes.ofString name ∨
        '.'.toUInt8 :: Bytes.ofString name <:+ t.erasure.text := by
  have hplain : Bytes.holds (Bytes.ofString "<") (Bytes.ofString name) = false :=
    Bool.eq_false_iff.mpr fun hholds => h (Bytes.mem_of_holds hholds)
  simp only [isNamed, hplain, Bool.false_eq_true, if_false, Bool.or_eq_true, beq_iff_eq,
    List.isSuffixOf_iff_suffix, or_assoc]

/-- What is left of a written type is its text without type arguments, but for stray bytes. -/
theorem erasure_text (t : WrittenType) : erasure ⟨t.text⟩ = ⟨mended t.erased.text⟩ :=
  t.leaves.erasure

/-- Names are made of characters, so what is left of a type is text; only stray bytes, which are
letters to the lexer, could keep it from being so. Then the type without arguments is that type,
each ending of it means the type, and no other name without an angle bracket does but the text of
the type itself. -/
theorem erasure_written (t : WrittenType)
    (h : ∃ shown : String, t.erased.text = Bytes.ofString shown) :
    erasure ⟨t.text⟩ = ⟨t.erased.text⟩ ∧
    (∀ e ∈ t.erased.endings, ∀ name : String, Bytes.ofString name = e.text →
      isNamed ⟨t.text⟩ name = true) ∧
    (∀ name : String, '<' ∉ name.toList → Bytes.ofString name ≠ t.text →
      (∀ e ∈ t.erased.endings, Bytes.ofString name ≠ e.text) →
        isNamed ⟨t.text⟩ name = false) := by
  obtain ⟨shown, hshown⟩ := h
  have herasure : erasure ⟨t.text⟩ = ⟨t.erased.text⟩ := by
    rw [erasure_text, hshown, Utf8.mended_ofString]
  have hless : '<'.toUInt8 ∉ t.erased.text := by
    have hnone : '<'.toUInt8 ∉ (erasure ⟨t.text⟩).text := less_not_mem_outside 0 _
    rwa [herasure] at hnone
  refine ⟨herasure, fun e he name hname => ?_, fun name hplain hother hnone => ?_⟩
  · have hending := (t.exists_ending_iff (Bytes.ofString name)).mp ⟨e, he, hname⟩
    have hsubset : ∀ b ∈ Bytes.ofString name, b ∈ t.erased.text := by
      intro b hb
      rcases hending with heq | hsuffix
      · exact heq ▸ hb
      · exact hsuffix.subset (List.mem_cons_of_mem _ hb)
    rw [isNamed_iff fun hmem => hless (hsubset _ hmem), herasure]
    exact .inr (hending.imp_left Eq.symm)
  · have hname : '<'.toUInt8 ∉ Bytes.ofString name :=
      fun hmem => hplain (Bytes.mem_of_mem_ofString (by decide) hmem)
    rw [Bool.eq_false_iff, Ne, isNamed_iff hname, herasure]
    rintro (hwhole | hleft)
    · exact hother hwhole.symm
    · have hending := (t.exists_ending_iff _).mpr (hleft.imp_left Eq.symm)
      obtain ⟨e, he, heq⟩ := hending
      exact hnone e he heq

/-- The arguments of both parts are left out. What stands behind the first dot means the type, but
not without the square brackets. -/
theorem erasure_written_layered :
    layered.text = Bytes.ofString "geo.Größe<Part, Größe<? extends long[]>>.Part<long>[]" ∧
      (∃ shown : String, layered.erased.text = Bytes.ofString shown) ∧
      erasure ⟨layered.text⟩ = named "geo.Größe.Part[]" ∧
      isNamed ⟨layered.text⟩ "Größe.Part[]" = true ∧
      isNamed ⟨layered.text⟩ "Größe.Part" = false := by
  have hleft : layered.erased.text = Bytes.ofString "geo.Größe.Part[]" := by decide
  obtain ⟨herasure, hending, hother⟩ := erasure_written layered ⟨_, hleft⟩
  refine ⟨by decide, ⟨_, hleft⟩, herasure.trans (congrArg StaticType.mk hleft), ?_, ?_⟩
  · have hmem : ∃ e ∈ layered.erased.endings, Bytes.ofString "Größe.Part[]" = e.text :=
      ⟨_, List.mem_cons_of_mem _ List.mem_cons_self, by decide⟩
    obtain ⟨e, he, heq⟩ := hmem
    exact hending e he _ heq
  · exact hother _ (by decide) (by decide) (by decide)

end StaticType

end DotCompletion
