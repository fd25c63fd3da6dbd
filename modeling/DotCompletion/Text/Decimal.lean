/-!
# Decimal numbers

Numbers are read as an optional sign and at least one ASCII digit, and must fit
in 64 bits with a sign.
-/

namespace DotCompletion.Decimal

/-- The value of a non-empty row of ASCII digits. -/
def digits? : List Char → Option Nat
  | [] => none
  | cs =>
    if cs.all Char.isDigit then
      some (cs.foldl (fun value c => value * 10 + (c.toNat - 48)) 0)
    else none

/-- The least number that is too large for 64 bits with a sign. -/
def limit : Nat := 0x8000000000000000

/-- The integer written by the text, if it is one of 64 bits. -/
def int? (text : List Char) : Option Int := do
  let value ← match text with
    | '-' :: cs => (digits? cs).map fun n => -(n : Int)
    | '+' :: cs => (digits? cs).map fun n => (n : Int)
    | cs => (digits? cs).map fun n => (n : Int)
  if -(limit : Int) ≤ value ∧ value < limit then some value else none

/-- `text` with spaces added behind it up to `width` characters. -/
def padRight (width : Nat) (text : String) : String :=
  text ++ String.ofList (List.replicate (width - text.length) ' ')

end DotCompletion.Decimal
