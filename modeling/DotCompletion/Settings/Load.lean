import DotCompletion.Settings.BuiltIn
import DotCompletion.Settings.Files
import DotCompletion.Settings.Format

/-!
# Loading settings

Settings come from a file that the user names, or are the built-in ones.
-/

namespace DotCompletion.Settings

/-- Why a settings file was not loaded. -/
inductive LoadFault where
  | unreadable (e : FileError)
  | refused (reason : Refusal)
deriving DecidableEq, Repr

/-- A settings file that was not loaded. -/
structure LoadError where
  path : Bytes
  fault : LoadFault
deriving DecidableEq, Repr

/-- The fault in words. -/
def LoadFault.message : LoadFault → Bytes
  | unreadable e => e.message
  | refused .undecodable => Bytes.ofString "not a description of templates"
  | refused (.invalid reason) => Bytes.ofString reason.message

/-- The complaint about a settings file. -/
def LoadError.message (e : LoadError) : Bytes :=
  Bytes.ofString "template config " ++ e.path ++ Bytes.ofString ": " ++ e.fault.message

/-- The templates of a settings file. -/
def load (files : Files) (path : Bytes) : Except LoadError (List Template) :=
  match files.read path with
  | .error e => .error ⟨path, .unreadable e⟩
  | .ok content =>
    (decode (.ofPath path) content).mapError fun reason => ⟨path, .refused reason⟩

/-- The templates of a settings file; without a path, the built-in ones. -/
def loadOrBuiltIn (files : Files) (path : Bytes) : Except LoadError (List Template) :=
  if path.isEmpty then .ok builtIn else load files path

end DotCompletion.Settings
