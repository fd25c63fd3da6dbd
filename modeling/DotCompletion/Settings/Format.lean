import DotCompletion.Settings.FromToml
import DotCompletion.Settings.FromYaml
import DotCompletion.Text.Path
import DotCompletion.Text.Utf8

/-!
# Settings in a file format

Settings are written in YAML or in TOML. The name of a file tells which. A text
is refused if it does not describe templates, or if the templates are not valid.
-/

namespace DotCompletion.Settings

/-- A way to write settings. -/
inductive Format where
  | yaml
  | toml
deriving DecidableEq, Repr

/-- An ASCII capital as a small letter. -/
def lower (b : UInt8) : UInt8 :=
  if 'A'.toUInt8 ≤ b ∧ b ≤ 'Z'.toUInt8 then b + 32 else b

namespace Format

/-- The format of a file: TOML if its name says so in small or capital letters,
and YAML otherwise. -/
def ofPath (path : Bytes) : Format :=
  if (Path.extension path).map lower = Bytes.ofString ".toml" then .toml else .yaml

/-- The templates that a file's content describes, valid or not. -/
def read? : Format → Bytes → Option (List Template)
  | yaml, content => decodeYaml? content
  | toml, content => (Utf8.text? content).bind decodeToml?

end Format

/-- Why a text is refused. -/
inductive Refusal where
  | undecodable
  | invalid (reason : Template.Invalid)
deriving DecidableEq, Repr

/-- The templates of a file's content. -/
def decode (format : Format) (content : Bytes) : Except Refusal (List Template) :=
  match format.read? content with
  | none => .error .undecodable
  | some templates => (Template.validate templates).mapError .invalid

end DotCompletion.Settings
