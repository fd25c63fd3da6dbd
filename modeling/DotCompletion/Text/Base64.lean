import DotCompletion.Text.Bytes

/-!
# Bytes in base 64

Three bytes are written as four characters. The last group is filled up with
equals signs. Line breaks are ignored.
-/

namespace DotCompletion.Base64

/-- The value of a digit. -/
def digit? (c : Char) : Option Nat :=
  if 'A' ≤ c ∧ c ≤ 'Z' then some (c.toNat - 65)
  else if 'a' ≤ c ∧ c ≤ 'z' then some (c.toNat - 71)
  else if c.isDigit then some (c.toNat + 4)
  else if c = '+' then some 62
  else if c = '/' then some 63
  else none

/-- The first `count` bytes of a number of three bytes. -/
def bytesOf (count value : Nat) : Bytes :=
  [UInt8.ofNat (value / 65536), UInt8.ofNat (value / 256), UInt8.ofNat value].take count

/-- The bytes of groups of four characters. Only the last group can be filled
up. -/
def groups? : List Char → Option Bytes
  | [] => some []
  | a :: b :: c :: d :: rest => do
    let high := (← digit? a) * 262144 + (← digit? b) * 4096
    if c = '=' ∧ d = '=' ∧ rest = [] then some (bytesOf 1 high)
    else
      let middle := high + (← digit? c) * 64
      if d = '=' ∧ rest = [] then some (bytesOf 2 middle)
      else
        let more ← groups? rest
        some (bytesOf 3 (middle + (← digit? d)) ++ more)
  | _ => none

/-- The bytes that a text stands for. -/
def decode? (text : String) : Option Bytes :=
  groups? (text.toList.filter fun c => c != '\n' && c != '\r')

end DotCompletion.Base64
