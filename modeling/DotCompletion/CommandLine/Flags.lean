import DotCompletion.Text.Quoted

/-!
# Flags

A command line is a row of words. A word that begins with two dashes sets a flag
by its name; one with a single dash sets switches by their letters. A flag may
take a text, which stands behind an equals sign or is the next word, or be a
switch, which may be given a truth value behind an equals sign. Letters that
begin with `test.` are meant for a test runner and set nothing. All other words,
and all words behind two bare dashes, are arguments. Flags and arguments may be
mixed, and of a flag given twice the last one counts.
-/

namespace DotCompletion

/-- What a flag takes. -/
inductive FlagKind where
  | text
  | switch
  /-- A switch that may be given several times; whatever it is given turns it
  on. -/
  | count
deriving DecidableEq, Repr

/-- A flag that a command understands. -/
structure Flag where
  name : String
  kind : FlagKind
  /-- The letter of a switch that has one. -/
  letter : Option Char
deriving DecidableEq, Repr

/-- Why a command line is refused. -/
inductive UsageError where
  | unknownFlag (name : String)
  | unknownLetter (letter : Char) (letters : String)
  | badFlag (word : String)
  | missingValue (name : String)
  | notBoolean (name value : String)
  | wrongCount (wanted received : Nat)
  | unknownCommand (name : String)
deriving DecidableEq, Repr

/-- The complaint about a command line. -/
def UsageError.message : UsageError → String
  | unknownFlag name => "unknown flag: --" ++ name
  | unknownLetter letter letters =>
    "unknown shorthand flag: " ++ Quoted.quoteChar letter ++ " in -" ++ letters
  | badFlag word => "bad flag syntax: " ++ word
  | missingValue name => "flag needs an argument: --" ++ name
  | notBoolean name value =>
    "invalid argument " ++ Quoted.quoteText value ++ " for " ++ Quoted.quoteText ("--" ++ name)
      ++ " flag: strconv.ParseBool: parsing " ++ Quoted.quoteText value ++ ": invalid syntax"
  | wrongCount wanted received =>
    "accepts " ++ toString wanted ++ " arg(s), received " ++ toString received
  | unknownCommand name => "unknown command " ++ Quoted.quoteText name ++ " for \x22postfix\x22"

/-- What one word of a command line means. -/
inductive Word.Meaning where
  | argument
  /-- All words that follow are arguments. -/
  | endOfFlags
  | text (name value : String)
  /-- The next word is the text of a flag. -/
  | textFollows (name : String)
  | switches (values : List (String × Bool))
  | wrong (e : UsageError)
deriving DecidableEq, Repr

namespace Flag

/-- The texts that turn a switch on. -/
def truths : List String := ["1", "t", "T", "TRUE", "true", "True"]

/-- The texts that turn a switch off. -/
def falsehoods : List String := ["0", "f", "F", "FALSE", "false", "False"]

/-- The flag is given without a text. -/
def bare (f : Flag) : Word.Meaning :=
  match f.kind with
  | .text => .textFollows f.name
  | .switch | .count => .switches [(f.name, true)]

/-- The flag is given with a text. -/
def given (f : Flag) (value : String) : Word.Meaning :=
  match f.kind with
  | .text => .text f.name value
  | .count => .switches [(f.name, true)]
  | .switch =>
    if truths.contains value then .switches [(f.name, true)]
    else if falsehoods.contains value then .switches [(f.name, false)]
    else .wrong (.notBoolean f.name value)

/-- What two dashes and the given characters mean. -/
def long (flags : List Flag) (body : List Char) : Word.Meaning :=
  let name := String.ofList (body.takeWhile (· != '='))
  if body.head? = some '-' ∨ body.head? = some '=' then
    .wrong (.badFlag ("--" ++ String.ofList body))
  else
    match flags.find? fun f => f.name == name, body.dropWhile (· != '=') with
    | none, _ => .wrong (.unknownFlag name)
    | some f, [] => f.bare
    | some f, _ :: value => f.given (String.ofList value)

/-- What the letters meant for a test runner begin with. -/
def testRunner : List Char := "test.".toList

/-- The character whose number is the first byte of another. Letters of flags are
single bytes. -/
def firstByte (c : Char) : Char :=
  ((String.utf8EncodeChar c).head?.map fun b => Char.ofNat b.toNat).getD c

/-- What a dash and the given letters mean. A text behind an equals sign belongs
to the letter in front of it. -/
def short (flags : List Flag) : List Char → Word.Meaning
  | [] => .switches []
  | c :: rest =>
    if testRunner.isPrefixOf (c :: rest) then .switches []
    else
      match flags.find? fun f => f.letter == some c with
      | none => .wrong (.unknownLetter (firstByte c) (String.ofList (c :: rest)))
      | some f =>
        match rest with
        | '=' :: v :: value => f.given (String.ofList (v :: value))
        | _ =>
          match f.bare, short flags rest with
          | .switches here, .switches behind => .switches (here ++ behind)
          | .switches _, other => other
          | other, _ => other

/-- What a word means. A dash alone is an argument. -/
def meaning (flags : List Flag) (word : String) : Word.Meaning :=
  match word.toList with
  | '-' :: '-' :: [] => .endOfFlags
  | '-' :: '-' :: body => long flags body
  | '-' :: c :: letters => short flags (c :: letters)
  | _ => .argument

end Flag

/-- What a command line says: the texts and switches of its flags, the last ones
first, and its arguments. -/
structure CommandLine where
  texts : List (String × String)
  switches : List (String × Bool)
  arguments : List String
deriving DecidableEq, Repr

namespace CommandLine

/-- A command line without words. -/
def empty : CommandLine := ⟨[], [], []⟩

/-- The text of a flag; empty if it is not given. -/
def text (l : CommandLine) (name : String) : String := (l.texts.lookup name).getD ""

/-- The value of a switch; off if it is not given. -/
def switch (l : CommandLine) (name : String) : Bool := (l.switches.lookup name).getD false

/-- Read words behind those that were read already. -/
def readFrom (flags : List Flag) : CommandLine → List String → Except UsageError CommandLine
  | l, [] => .ok l
  | l, word :: rest =>
    match Flag.meaning flags word with
    | .argument => readFrom flags { l with arguments := l.arguments ++ [word] } rest
    | .endOfFlags => .ok { l with arguments := l.arguments ++ rest }
    | .text name value => readFrom flags { l with texts := (name, value) :: l.texts } rest
    | .textFollows name =>
      match rest with
      | value :: rest => readFrom flags { l with texts := (name, value) :: l.texts } rest
      | [] => .error (.missingValue name)
    | .switches values =>
      readFrom flags { l with switches := values.reverse ++ l.switches } rest
    | .wrong e => .error e

/-- Read the words of a command line. -/
def read (flags : List Flag) (words : List String) : Except UsageError CommandLine :=
  readFrom flags .empty words

end CommandLine

end DotCompletion
