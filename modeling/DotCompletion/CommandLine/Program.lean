import DotCompletion.CommandLine.Command

/-!
# The program

The first word that is neither a flag nor the text of a flag names a command.
Flags may stand in front of it as well as behind it.
-/

namespace DotCompletion.Program

/-- The version of the program. -/
def version : String := "0.1.0"

/-- What is printed when the user asks for the version. -/
def versionLine : Bytes := Command.line ("postfix version " ++ version)

/-- What is printed when the user asks for nothing. -/
def summary : Bytes := Command.line "Postfix completion for Java"

/-- The flags that all commands understand. -/
def common : List Flag := [⟨"verbose", .count, some 'v'⟩, ⟨"log", .text, none⟩]

/-- The flags that are understood without a command. -/
def bare : List Flag := ⟨"version", .switch, none⟩ :: common

/-- In front of the command, a flag that is not known to be a switch is taken to
have the next word as its text. -/
def takesNext (word : String) : Bool :=
  match Flag.meaning common word with
  | .textFollows _ => true
  | .wrong (.unknownFlag _) => !word.toList.contains '='
  | .wrong (.unknownLetter _ _) => word.length == 2
  | _ => false

/-- The word that names the command, and all other words. -/
def split? : List String → Option (String × List String)
  | [] => none
  | word :: rest =>
    if word = "--" then none
    else if takesNext word then
      match rest with
      | value :: next :: more =>
        (split? (next :: more)).map fun (name, words) => (name, word :: value :: words)
      | _ => none
    else if word = "" ∨ word.toList.head? = some '-' then
      (split? rest).map fun (name, words) => (name, word :: words)
    else some (word, rest)

/-- Run the program on the words of its command line. -/
def run (files : Files) (words : List String) : Except Failure Effect :=
  match split? words with
  | some (name, words) =>
    match Command.ofName? name with
    | some command => command.run files common words
    | none => .error (.usage (.unknownCommand name))
  | none =>
    match CommandLine.read bare words with
    | .ok line => .ok (.print (if line.switch "version" then versionLine else summary))
    | .error e => .error (.usage e)

/-- The files that a command line may ask to be read. -/
def paths (words : List String) : List String :=
  match split? words with
  | some (name, words) =>
    match (Command.ofName? name).map fun c => CommandLine.read (c.flags ++ common) words with
    | some (.ok line) => line.text "templates" :: line.arguments
    | _ => []
  | none => []

end DotCompletion.Program
