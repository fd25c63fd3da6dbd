import DotCompletion.Completion.Proposal
import DotCompletion.Proofs.Grammar.LastStatement
import DotCompletion.Proofs.Text.Ascii
import DotCompletion.Proofs.Text.Encoding
import DotCompletion.Proofs.Token.Gaps
import DotCompletion.Proofs.Token.Insertion

/-!
# Names that can be typed

Whether a template may have a name is decided by its characters, with the tables of letters and
digits. Tokens are cut by bytes, and to them every byte outside ASCII is a letter. So each byte of
a word of characters belongs to a word of bytes, and a name that is accepted is a single token.
Behind an operand and a dot, with the inserted identifier at its end, it is the name of a reference
(`Word.typable`).
-/

namespace DotCompletion

open Request (dummy)

/-! ## Characters and bytes -/

namespace Word

open Utf8

theorem isLetter_ofNat :
    ∀ n < 0x80, isLetter (Char.ofNat n) = true → Scan.isLetter (UInt8.ofNat n) = true := by
  decide +kernel

theorem isWordChar_ofNat :
    ∀ n < 0x80, isWordChar (Char.ofNat n) = true → Scan.isWordByte (UInt8.ofNat n) = true := by
  decide +kernel

theorem scan_isLetter_of_large {b : UInt8} (h : 0x80 ≤ b) : Scan.isLetter b = true := by
  simp [Scan.isLetter, h]

theorem scan_isWordByte_of_large {b : UInt8} (h : 0x80 ≤ b) : Scan.isWordByte b = true := by
  rw [Scan.isWordByte, scan_isLetter_of_large h, Bool.true_or]

/-- The first byte of a letter is a letter. -/
theorem isLetter_of_head {b : UInt8} {rest : Bytes} (h : isLetter (head b rest).1.toChar = true) :
    Scan.isLetter b = true := by
  obtain ⟨hb, hhead⟩ | ⟨hb, -⟩ := head_cases b rest
  · rw [hhead] at h
    have hletter := isLetter_ofNat b.toNat (UInt8.lt_iff_toNat_lt.mp hb) h
    rwa [UInt8.ofNat_toNat] at hletter
  · exact scan_isLetter_of_large hb

/-- The bytes of a character of a word are bytes of a word. -/
theorem isWordByte_of_head {b : UInt8} {rest : Bytes}
    (h : isWordChar (head b rest).1.toChar = true) :
    ∀ y ∈ b :: rest.take (head b rest).2, Scan.isWordByte y = true := by
  obtain ⟨hb, hhead⟩ | ⟨hb, -, hrest⟩ := head_cases b rest
  · rw [hhead] at h ⊢
    have hword := isWordChar_ofNat b.toNat (UInt8.lt_iff_toNat_lt.mp hb) h
    rw [UInt8.ofNat_toNat] at hword
    simpa using hword
  · exact List.forall_mem_cons.mpr ⟨scan_isWordByte_of_large hb,
      fun y hy => scan_isWordByte_of_large (hrest y hy)⟩

/-- By the recursion of reading: each character of a word gives bytes of a word. -/
theorem isWordByte_of_pieces {s : Bytes} (h : ∀ p ∈ pieces s, isWordChar p.toChar = true) :
    ∀ b ∈ s, Scan.isWordByte b = true := by
  fun_induction pieces s with
  | case1 => exact List.forall_mem_nil _
  | case2 b rest ih =>
      obtain ⟨hhead, hmore⟩ := List.forall_mem_cons.mp h
      have hfront := isWordByte_of_head hhead
      intro y hy
      rw [← List.take_append_drop (head b rest).2 rest, ← List.cons_append, List.mem_append] at hy
      exact hy.elim (hfront y) (ih hmore y)

/-- The bytes of a word are a word of the source. -/
theorem lexeme_isWord {s : Bytes} (h : isWord (toText s) = true) :
    Lexeme.IsWord ⟨.ofWord s, s⟩ := by
  rw [isWord, toText, String.toList_ofList] at h
  cases s with
  | nil => simp [pieces] at h
  | cons b rest =>
      simp only [pieces, List.map_cons, Bool.and_eq_true, List.all_eq_true,
        List.forall_mem_map] at h
      obtain ⟨hfirst, hmore⟩ := h
      have hall : ∀ p ∈ pieces (b :: rest), isWordChar p.toChar = true := by
        rw [pieces]
        refine List.forall_mem_cons.mpr ⟨?_, hmore⟩
        rw [isWordChar, hfirst, Bool.true_or]
      refine ⟨?_, isWordByte_of_pieces hall, List.cons_ne_nil b rest, rfl⟩
      rintro _ ⟨⟩
      exact isLetter_of_head hfirst

end Word

/-! ## A word alone and behind a dot -/

theorem Lexeme.IsWord.alone {s : Bytes} (h : Lexeme.IsWord ⟨.ofWord s, s⟩) :
    Token.read .origin s = [Lexeme.place ⟨.ofWord s, s⟩ .origin] :=
  Lexeme.ReadsBefore.alone (h.readsBefore nofun)

/-- With the inserted identifier at its end a word is a name: it is too long for a keyword. -/
theorem Lexeme.IsWord.isName_append_dummy {l : Lexeme} (h : l.IsWord) :
    Lexeme.IsName (l.text ++ dummy) where
  letter := by
    rw [List.head?_append_of_ne_nil _ h.text_ne]
    exact h.letter
  word := by
    refine List.forall_mem_append.mpr ⟨h.word, fun b hb => ?_⟩
    rw [Scan.isWordByte, Token.isLetter_of_mem_dummy b hb, Bool.true_or]
  ordinary := by
    have hlength : dummy.length = 17 := by decide
    refine Scan.ofWord_eq_identifier ?_
    rw [List.length_append]
    omega
  text_ne := List.append_ne_nil_of_left_ne_nil h.text_ne _

/-- Where a name, a dot and another name are all that is ahead, they are a reference. -/
theorem Rule.reads_selection {x dot name : Token} (hx : x.kind = .identifier)
    (hdot : dot.kind = .dot) (hname : name.kind = .identifier) (eof : Token) :
    ∃ c, Rule.expression.Reads [] ⟨[x, dot, name], eof, none, 0⟩
      [.selection (.name x) dot name] c := by
  obtain ⟨kind, span, text⟩ := x
  obtain ⟨kind', span', text'⟩ := dot
  obtain ⟨kind'', span'', text''⟩ := name
  cases hx
  cases hdot
  cases hname
  -- with the kinds known the rules can be run
  exact ⟨_, 16, rfl⟩

theorem Entry.parse_name_behind {source : Bytes} {x dot name : Token}
    (hsource : Token.significant source = [x, dot, name]) (hx : x.kind = .identifier)
    (hdot : dot.kind = .dot) (hname : name.kind = .identifier) :
    Entry.expression.parse source = .selection (.name x) dot name := by
  obtain ⟨c, hreads⟩ :=
    Rule.reads_selection hx hdot hname (.endAt (Position.origin.advance source))
  rw [← hsource] at hreads
  exact Entry.parse_eq hreads

/-- The texts of two names with a dot between them are a reference. -/
theorem Entry.parse_reference {x name : Bytes} (hx : Lexeme.IsName x)
    (hname : Lexeme.IsName name) : ∃ x' dot name' : Token,
      Entry.expression.parse (x ++ (Lexeme.sign .dot).text ++ name) =
        .selection (.name x') dot name' ∧ name'.literal = name := by
  have hrow : Lexeme.ReadInRow [⟨.identifier, x⟩, Lexeme.sign .dot, ⟨.identifier, name⟩] :=
    ⟨hx.readsBefore_dot _, Lexeme.dot_readsBefore hname _, hname.readsBefore nofun rfl, trivial⟩
  have hread := hrow.read .origin
  rw [List.flatMap_cons, List.flatMap_cons, List.flatMap_singleton, ← List.append_assoc] at hread
  have hsource := congrArg Token.visible hread
  exact ⟨_, _, _, Entry.parse_name_behind hsource rfl rfl rfl, rfl⟩

/-! ## Names of templates -/

namespace Word

/-- A word that can be typed: alone it is one token in front of the end, and behind an operand and
a dot, with the inserted identifier at its end, it is the name of a reference. -/
structure Typable (s : Bytes) : Prop where
  token : Token.ofSource s = [⟨.ofWord s, ⟨.origin, Position.origin.advance s⟩, s⟩,
    .endAt (Position.origin.advance s)]
  reference : (Entry.expression.parse (Bytes.ofString "x." ++ s ++ dummy)).kind = .referenceExpr
  name : ∃ name, (Entry.expression.parse (Bytes.ofString "x." ++ s ++ dummy)).children.getLast? =
    some name ∧ name.kind = .identifier ∧ name.literal = s ++ dummy

theorem typable_of_isWord {s : Bytes} (h : Lexeme.IsWord ⟨.ofWord s, s⟩) : Typable s := by
  obtain ⟨x, dot, name, hparse, hname⟩ :=
    @Entry.parse_reference (Bytes.ofString "x") _ (by decide) h.isName_append_dummy
  have htext : Bytes.ofString "x." ++ s ++ dummy =
      Bytes.ofString "x" ++ (Lexeme.sign .dot).text ++ (s ++ dummy) := by
    rw [← List.append_assoc]
    rfl
  rw [← htext] at hparse
  refine ⟨?_, ?_, ?_⟩
  · rw [Token.ofSource, h.alone]
    rfl
  · rw [hparse]
    rfl
  · rw [hparse]
    exact ⟨_, rfl, rfl, hname⟩

/-- Every word can be typed, so every name that a template may have. -/
theorem typable : (∀ s : Bytes, isWord (Utf8.toText s) = true → Typable s) ∧
    ∀ m : Metadata, m.isValid = true → Typable (Bytes.ofString m.name) := by
  refine ⟨fun s h => typable_of_isWord (lexeme_isWord h), fun m h => ?_⟩
  refine typable_of_isWord (lexeme_isWord ?_)
  rwa [Utf8.toText_ofString]

/-- A word with letters outside ASCII, and one with which a keyword begins. -/
theorem typable_outside_ascii : Typable (Bytes.ofString "größe") ∧ Typable (Bytes.ofString "non") :=
  ⟨typable.1 _ (by decide +kernel), typable.2 ⟨"non", "", ""⟩ (by decide +kernel)⟩

end Word

end DotCompletion
