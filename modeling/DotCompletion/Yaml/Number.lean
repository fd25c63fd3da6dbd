import DotCompletion.Text.Decimal

/-!
# YAML numbers and dates

Values with the tag of a number or of a date must look like one. This module
tells which texts do.
-/

namespace DotCompletion.Yaml

/-! ## Integers -/

/-- The value of a digit in some base up to 36. -/
def digitValue? (base : Nat) (c : Char) : Option Nat :=
  let value :=
    if c.isDigit then c.toNat - 48
    else if 'a' ≤ c ∧ c ≤ 'z' then c.toNat - 87
    else if 'A' ≤ c ∧ c ≤ 'Z' then c.toNat - 55
    else base
  if value < base then some value else none

/-- The number that digits write in a base. -/
def digits? (base : Nat) (s : List Char) : Option Nat :=
  s.foldlM (fun value c => (digitValue? base c).map (value * base + ·)) 0

/-- The base that the letter behind a leading zero means. -/
def baseOf? (c : Char) : Option Nat :=
  if c = 'b' ∨ c = 'B' then some 2
  else if c = 'o' ∨ c = 'O' then some 8
  else if c = 'x' ∨ c = 'X' then some 16
  else none

/-- A number without a sign. A leading zero means base 8, unless a letter says
otherwise. -/
def natural? : List Char → Option Nat
  | [] => none
  | '0' :: c :: d :: rest =>
    match baseOf? c with
    | some base => digits? base (d :: rest)
    | none => digits? 8 (c :: d :: rest)
  | '0' :: rest => digits? 8 rest
  | s => digits? 10 s

/-- A number with a sign or without, read by `read?`, that fits into 64 bits. -/
def signed? (read? : List Char → Option Nat) : List Char → Option Int
  | '-' :: s => (read? s).bind fun n => if n ≤ Decimal.limit then some (-(n : Int)) else none
  | '+' :: s => (read? s).bind fun n => if n < Decimal.limit then some (n : Int) else none
  | s => (read? s).bind fun n => if n < Decimal.limit then some (n : Int) else none

/-- A number in a given base, of at least one digit. -/
def naturalIn? (base : Nat) (s : List Char) : Option Nat :=
  if s.isEmpty then none else digits? base s

/-- The text is an integer of 64 bits with a sign. Behind a letter for the base
there may be a sign, too. -/
def isSignedInteger (s : List Char) : Bool :=
  (signed? natural? s).isSome ||
    match s with
    | '0' :: 'b' :: rest => (signed? (naturalIn? 2) rest).isSome
    | '0' :: 'o' :: rest => (signed? (naturalIn? 8) rest).isSome
    | _ => false

/-- The text is an integer of 64 bits without a sign. -/
def isUnsignedInteger (s : List Char) : Bool :=
  ((natural? s).map fun n => decide (n < 2 * Decimal.limit)).getD false

/-! ## Decimal fractions -/

/-- Behind a sign, if there is one. -/
def unsign : List Char → List Char
  | '+' :: s => s
  | '-' :: s => s
  | s => s

/-- The exponent at the end of a fraction, which may be missing. -/
def exponent? : List Char → Option Int
  | [] => some 0
  | c :: s =>
    if c = 'e' ∨ c = 'E' then
      (naturalIn? 10 (unsign s)).map fun n => if s.head? = some '-' then -(n : Int) else n
    else none

/-- The least number that is too large for a fraction of 64 bits. -/
def fractionLimit : Nat := Nat.pow 2 1024 - Nat.pow 2 970

/-- The number with the given digits times a power of ten is not too large. -/
def fits (digits : List Char) (power : Int) : Bool :=
  let digits := digits.dropWhile (· == '0')
  let size := (digits.length : Int) + power
  digits.isEmpty || size < 300 ||
    (size < 320 &&
      match digits? 10 digits with
      | none => false
      | some n =>
        if 0 ≤ power then n * Nat.pow 10 power.toNat < fractionLimit
        else n < fractionLimit * Nat.pow 10 (-power).toNat)

/-- The text is a decimal fraction of 64 bits. -/
def isFraction (s : List Char) : Bool :=
  let s := unsign s
  let whole := s.takeWhile Char.isDigit
  let rest := s.dropWhile Char.isDigit
  let (part, rest) :=
    match rest with
    | '.' :: more => (more.takeWhile Char.isDigit, more.dropWhile Char.isDigit)
    | rest => ([], rest)
  match exponent? rest with
  | none => false
  | some e => !(whole.isEmpty && part.isEmpty) && fits (whole ++ part) (e - part.length)

/-- The words for numbers that are infinite or not numbers. -/
def fractionWords : List String :=
  [".nan", ".NaN", ".NAN", ".inf", ".Inf", ".INF", "+.inf", "+.Inf", "+.INF", "-.inf", "-.Inf",
   "-.INF"]

/-- A number may begin with this character. -/
def startsNumber (c : Char) : Bool := c.isDigit || c == '+' || c == '-'

/-- The digits of a number, without the lines that group them. -/
def ungrouped (s : List Char) : List Char := s.filter (· != '_')

/-- The text is an integer. -/
def isInteger (text : String) : Bool :=
  let s := ungrouped text.toList
  (text.toList.head?.map startsNumber).getD false && (isSignedInteger s || isUnsignedInteger s)

/-- The text is a number. Integers that need all 64 bits for their value are not
taken for fractions. -/
def isNumber (text : String) : Bool :=
  let s := ungrouped text.toList
  fractionWords.contains text ||
    match text.toList with
    | '.' :: _ => isFraction text.toList
    | c :: _ =>
      startsNumber c && (isSignedInteger s || (!isUnsignedInteger s && isFraction s))
    | [] => false

/-! ## Dates -/

/-- Read a number of one or two digits. -/
def short? : List Char → Option (Nat × List Char)
  | a :: b :: s =>
    if a.isDigit && b.isDigit then some ((a.toNat - 48) * 10 + (b.toNat - 48), s)
    else if a.isDigit then some (a.toNat - 48, b :: s)
    else none
  | [a] => if a.isDigit then some (a.toNat - 48, []) else none
  | [] => none

/-- Read a given character. -/
def sign? (c : Char) : List Char → Option (List Char)
  | [] => none
  | d :: s => if c = d then some s else none

/-- A year with 366 days. -/
def isLeap (year : Nat) : Bool := year % 4 == 0 && (year % 100 != 0 || year % 400 == 0)

/-- The number of days of a month. -/
def daysIn (year month : Nat) : Nat :=
  if month = 2 then (if isLeap year then 29 else 28)
  else if [4, 6, 9, 11].contains month then 30
  else 31

/-- Read a date. The year has four digits. -/
def date? (s : List Char) : Option (List Char) := do
  let year ← naturalIn? 10 (s.take 4)
  if s.length < 4 then none
  let (month, s) ← short? (← sign? '-' (s.drop 4))
  let (day, s) ← short? (← sign? '-' s)
  if 1 ≤ month ∧ month ≤ 12 ∧ 1 ≤ day ∧ day ≤ daysIn year month then some s else none

/-- Behind the fraction of a second, if there is one. -/
def fraction : List Char → List Char
  | c :: d :: s =>
    if (c == '.' || c == ',') && d.isDigit then s.dropWhile Char.isDigit else c :: d :: s
  | s => s

/-- Read a time of day. -/
def time? (s : List Char) : Option (List Char) := do
  let (hour, s) ← short? s
  let (minute, s) ← short? (← sign? ':' s)
  let (second, s) ← short? (← sign? ':' s)
  if hour < 24 ∧ minute < 60 ∧ second < 60 then some (fraction s) else none

/-- Read a time zone. -/
def zone? : List Char → Option (List Char)
  | 'Z' :: s => some s
  | s :: a :: b :: ':' :: c :: d :: rest => do
    if s ≠ '+' ∧ s ≠ '-' then none
    let hours ← naturalIn? 10 [a, b]
    let minutes ← naturalIn? 10 [c, d]
    if hours ≤ 24 ∧ minutes ≤ 60 then some rest else none
  | _ => none

/-- The text is a date, with a time of day and its zone, with a time of day
alone, or without. -/
def isDate (text : String) : Bool :=
  match date? text.toList with
  | none => false
  | some [] => true
  | some (c :: s) =>
    if c = 'T' ∨ c = 't' then ((time? s).bind zone?) == some []
    else c = ' ' && (time? (s.dropWhile (· == ' '))) == some []

end DotCompletion.Yaml
