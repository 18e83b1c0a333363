import DocTree.Files
import DocTree.Settings

/-!
# Settings from files

A file that does not exist stands for the standard settings.
-/

namespace DocTree

/-- Why a file gives no settings. -/
inductive SettingsError
  | unreadable (path : String)
  | malformed
deriving DecidableEq, Repr

def SettingsError.message : SettingsError → String
  | .unreadable path => "Failed to read " ++ path
  | .malformed => "Invalid configuration"

namespace Settings

/-- The name of the settings file of a directory. -/
def fileName : String := "rendition.toml"

variable {m : Type → Type} [Monad m]

/-- The settings of a file. -/
def load (fs : FileAccess m) (path : String) : m (Except SettingsError Settings) := do
  if ← fs.isPresent path then
    match ← fs.read? path with
    | none => return .error (.unreadable path)
    | some text =>
      match read? text with
      | none => return .error .malformed
      | some s => return .ok s
  else return .ok {}

/-- The settings of a directory. -/
def loadFrom (fs : FileAccess m) (dir : String) : m (Except SettingsError Settings) :=
  load fs (FilePath.join dir fileName)

end Settings

end DocTree
