import DotCompletion.Text.Utf8

/-!
# The encoding of YAML texts

A text is encoded in UTF-8 or, if a byte order mark says so, in UTF-16. It is
read in portions of a fixed number of bytes. A portion with a character that is
malformed or not allowed cannot be read at all; such a text is still good for
what can be learned from the portions in front of it.
-/

namespace DotCompletion.Yaml

/-- How characters are written as bytes. -/
inductive Encoding where
  | utf8
  /-- UTF-16, with the low byte of a unit first. -/
  | utf16Low
  /-- UTF-16, with the high byte of a unit first. -/
  | utf16High
deriving DecidableEq, Repr

/-- What stands at the head of a byte string. -/
inductive Decoded where
  | char (c : Char) (size : Nat)
  /-- The first bytes of a character whose rest is missing. -/
  | incomplete
  | malformed

/-- A character that may stand in a text. -/
def isAllowed (c : Char) : Bool :=
  let n := c.toNat
  n == 0x09 || n == 0x0A || n == 0x0D || (0x20 ≤ n && n ≤ 0x7E) || n == 0x85
    || (0xA0 ≤ n && n ≤ 0xFFFD) || 0x10000 ≤ n

namespace Encoding

/-- The encoding that the byte order mark of a text announces, and the number of
bytes that the mark takes. -/
def announced (content : Bytes) : Encoding × Nat :=
  if [0xFF, 0xFE].isPrefixOf content then (.utf16Low, 2)
  else if [0xFE, 0xFF].isPrefixOf content then (.utf16High, 2)
  else if [0xEF, 0xBB, 0xBF].isPrefixOf content then (.utf8, 3)
  else (.utf8, 0)

/-- A unit of UTF-16. -/
def unit (low : Bool) (first second : UInt8) : Nat :=
  if low then first.toNat + 256 * second.toNat else second.toNat + 256 * first.toNat

/-- The character at the head of a byte string in UTF-16. A high surrogate goes
together with the low one behind it. -/
def headUtf16 (low : Bool) : Bytes → Decoded
  | a :: b :: rest =>
    let high := unit low a b
    if 0xDC00 ≤ high ∧ high < 0xE000 then .malformed
    else if 0xD800 ≤ high ∧ high < 0xDC00 then
      match rest with
      | c :: d :: _ =>
        let tail := unit low c d
        if 0xDC00 ≤ tail ∧ tail < 0xE000 then
          .char (Char.ofNat (0x10000 + (high - 0xD800) * 0x400 + (tail - 0xDC00))) 4
        else .malformed
      | _ => .incomplete
    else .char (Char.ofNat high) 2
  | _ => .incomplete

/-- The character at the head of a byte string in UTF-8. -/
def headUtf8 : Bytes → Decoded
  | [] => .incomplete
  | b :: rest =>
    match Utf8.lead? b with
    | none => .malformed
    | some (n, _, _) =>
      if rest.length < n then .incomplete
      else
        match Utf8.char? b rest with
        | some (c, _) => .char c (n + 1)
        | none => .malformed

/-- The character at the head of a byte string. -/
def head : Encoding → Bytes → Decoded
  | utf8 => headUtf8
  | utf16Low => headUtf16 true
  | utf16High => headUtf16 false

/-- Read the characters of a portion behind those in `before`, the last one
first. Gives the characters and the bytes at the end that belong to a character
of the next portion. The count bounds the number of characters. -/
def portionFrom (e : Encoding) : Nat → (before : List Char) → Bytes → Option (List Char × Bytes)
  | 0, _, _ => none
  | n + 1, before, bytes =>
    if bytes.isEmpty then some (before.reverse, [])
    else
      match e.head bytes with
      | .char c size =>
        if isAllowed c then e.portionFrom n (c :: before) (bytes.drop size) else none
      | .incomplete => some (before.reverse, bytes)
      | .malformed => none

/-- Read the characters of a portion. -/
def portion (e : Encoding) (bytes : Bytes) : Option (List Char × Bytes) :=
  e.portionFrom (bytes.length + 1) [] bytes

end Encoding

/-- The number of bytes in a portion. -/
def portionSize : Nat := 512

/-- A text as far as it can be read. -/
structure Readable where
  /-- The characters, each with the number of its portion. -/
  chars : List (Char × Nat)
  /-- These are all characters of the text. -/
  complete : Bool

/-- Read portions from number `k` on, behind the characters in `before`, the last
one first. `skipped` is the size of a byte order mark in front, which counts as
a part of the portion. The count bounds the number of portions. -/
def Readable.portions (e : Encoding) :
    Nat → (skipped k : Nat) → (before : List (Char × Nat)) → Bytes → Readable
  | 0, _, _, before, _ => ⟨before.reverse, false⟩
  | n + 1, skipped, k, before, bytes =>
    if bytes.isEmpty then ⟨before.reverse, true⟩
    else
      let taken := bytes.take (portionSize - skipped)
      match e.portion taken with
      | none => ⟨before.reverse, false⟩
      | some (chars, left) =>
        if chars.isEmpty then ⟨before.reverse, false⟩
        else
          Readable.portions e n 0 (k + 1)
            (chars.foldl (fun before c => (c, k) :: before) before)
            (bytes.drop (taken.length - left.length))

/-- Read a text. -/
def Readable.ofBytes (content : Bytes) : Readable :=
  let (e, skipped) := Encoding.announced content
  Readable.portions e (content.length + 1) skipped 1 [] (content.drop skipped)

end DotCompletion.Yaml
