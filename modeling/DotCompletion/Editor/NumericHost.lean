import DotCompletion.Text.Path

/-!
# Hosts in numbers

A host can be given by a number of 128 bits: eight groups of up to four
hexadecimal digits with colons between them. Two colons together stand for one
or more groups of zeros, and the last two groups may be written as four decimal
numbers. A percent sign separates the number from a zone.
-/

namespace DotCompletion.NumericHost

/-- An ASCII digit. -/
def isDigit (b : UInt8) : Bool := '0'.toUInt8 ≤ b && b ≤ '9'.toUInt8

/-- A hexadecimal digit. -/
def isHexDigit (b : UInt8) : Bool :=
  isDigit b || ('a'.toUInt8 ≤ b && b ≤ 'f'.toUInt8) || ('A'.toUInt8 ≤ b && b ≤ 'F'.toUInt8)

/-- The parts of a text between the occurrences of a byte. -/
def partsAt (byte : UInt8) : Bytes → List Bytes
  | [] => [[]]
  | b :: rest =>
    match partsAt byte rest with
    | part :: parts => if b = byte then [] :: part :: parts else (b :: part) :: parts
    | [] => [[b]]

/-- A group of hexadecimal digits. -/
def isGroup (text : Bytes) : Bool :=
  !text.isEmpty && text.length ≤ 4 && text.all isHexDigit

/-- A number up to 255 without zeros in front. -/
def isOctet (text : Bytes) : Bool :=
  !text.isEmpty && text.all isDigit && (text.length == 1 || text.head? != some '0'.toUInt8)
    && text.length ≤ 3
    && text.foldl (fun value b => value * 10 + (b.toNat - '0'.toNat)) 0 ≤ 255

/-- Four decimal numbers, with dots between them. -/
def isDotted (text : Bytes) : Bool :=
  let octets := partsAt '.'.toUInt8 text
  octets.length == 4 && octets.all isOctet

/-- How many groups a text has; none for an empty one. Where `last`, the two at
its end may be decimal. -/
def groupCount? (last : Bool) (text : Bytes) : Option Nat :=
  if text.isEmpty then some 0
  else
    let groups := partsAt ':'.toUInt8 text
    if groups.all isGroup then some groups.length
    else if last && groups.dropLast.all isGroup && (groups.getLast?.map isDotted).getD false then
      some (groups.length + 1)
    else none

/-- What stands in front of the first two colons together, and what follows
them. -/
def splitAtZeros? : Bytes → Option (Bytes × Bytes)
  | [] => none
  | b :: rest =>
    if b = ':'.toUInt8 ∧ rest.head? = some ':'.toUInt8 then some ([], rest.drop 1)
    else (splitAtZeros? rest).map fun (front, back) => (b :: front, back)

/-- The text is a number of 128 bits. -/
def isNumber (text : Bytes) : Bool :=
  match splitAtZeros? text with
  | none => groupCount? true text == some 8
  | some (front, back) =>
    match groupCount? false front, groupCount? true back with
    | some m, some n => m + n ≤ 7
    | _, _ => false

/-- The text is a number of 128 bits, with or without a zone. -/
def isHost (text : Bytes) : Bool :=
  let number := text.takeWhile (· != '%'.toUInt8)
  isNumber number && text.length != number.length + 1

end DotCompletion.NumericHost
