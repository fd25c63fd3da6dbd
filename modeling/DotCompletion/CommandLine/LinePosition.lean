import DotCompletion.Text.Decimal
import DotCompletion.Text.Quoted

/-!
# Positions on the command line

A position is given as a line and a column with a colon between them. Both are
numbers from one.
-/

namespace DotCompletion

/-- A line and a column. -/
structure LinePosition where
  line : Int
  column : Int
deriving DecidableEq, Repr

namespace LinePosition

/-- The position as it is given. -/
def render (p : LinePosition) : String := toString p.line ++ ":" ++ toString p.column

/-- What is wrong with a text that should be a position. -/
inductive Fault where
  | shape
  | line
  | column
deriving DecidableEq, Repr

/-- A text that is no position. -/
structure Malformed where
  text : String
  fault : Fault
deriving DecidableEq, Repr

/-- The fault in words. -/
def Fault.message : Fault → String
  | shape => "want LINE:COLUMN"
  | line => "invalid line"
  | column => "invalid column"

/-- The complaint about a text. -/
def Malformed.message (e : Malformed) : String :=
  "position " ++ Quoted.quoteText e.text ++ ": " ++ e.fault.message

/-- A number from one. -/
def count? (digits : List Char) : Option Int :=
  (Decimal.int? digits).filter fun n => 1 ≤ n

/-- The position in a text, which is cut at its first colon. -/
def parse (text : String) : Except Malformed LinePosition :=
  match text.toList.dropWhile (· != ':') with
  | [] => .error ⟨text, .shape⟩
  | _ :: column =>
    match count? (text.toList.takeWhile (· != ':')), count? column with
    | none, _ => .error ⟨text, .line⟩
    | some _, none => .error ⟨text, .column⟩
    | some line, some column => .ok ⟨line, column⟩

end LinePosition

end DotCompletion
