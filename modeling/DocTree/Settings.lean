import DocTree.Reference.Resolve
import DocTree.Toml.Writer
import DocTree.Transform.Icon

/-!
# Settings

Settings are read from and written to TOML. Every key may be left out and has a standard value then;
keys without a meaning are passed over. A record may also be written as an array of its members in
their order. A moment stands for a table too: its text is the only entry, under a fixed name.
-/

namespace DocTree

/-- How references are resolved. -/
structure ReferenceSettings where
  /-- Links without a scheme lead into a wiki. -/
  wikiMode : Bool := true
  viewUrl : String := "/view/\x7breference\x7d"
  editUrl : String := "/edit/\x7breference\x7d"
  imageUrl : String := "/download/\x7breference\x7d"
deriving DecidableEq, Repr, Inhabited

/-- Which passes run, and how. -/
structure TransformSettings where
  /-- Names of passes; they run by priority, whatever their order here. -/
  enabled : List String := ["macro", "icon"]
  /-- Trees are not trusted. -/
  restricted : Bool := false
  /-- Icons for texts beyond the standard ones. -/
  icons : IconNames := ∅
  /-- The number of steps that macro expansion may make. -/
  maxSteps : Nat := 100
deriving DecidableEq, Inhabited

structure Settings where
  references : ReferenceSettings := {}
  transforms : TransformSettings := {}
deriving DecidableEq, Inhabited

/-! ## Resolving with settings -/

namespace ReferenceSettings

/-- The wiki that links lead into, in wiki mode. -/
def wiki? (s : ReferenceSettings) : Option Wiki :=
  if s.wikiMode then some { viewUrl := s.viewUrl, editUrl := s.editUrl, imageUrl := s.imageUrl }
  else none

def resolveLink (s : ReferenceSettings) (raw : String) : Reference :=
  .resolveLink .standard s.wikiMode raw

/-- Images resolve alike whatever the settings. -/
def resolveImage (_ : ReferenceSettings) (raw : String) : Reference :=
  .resolveImage .standard raw

end ReferenceSettings

/-! ## Reading -/

namespace Toml

/-- The name of the entry that a moment consists of when it stands for a table. -/
def momentKey : String := "$__toml_private_datetime"

/-- The entries of a table, or of a moment that stands for one. -/
def entries? : Toml → Option Entries
  | table _ es => some es
  | moment text => some [(momentKey, string text)]
  | _ => none

/-- The members of a record: named by entries, or in order in an array, which may be longer. -/
def members? (names : List String) : Toml → Option Entries
  | array _ items => some (names.zip items)
  | v => entries? v

/-- The decoded value of a member that may be left out. -/
def member {α : Type} (es : Entries) (name : String) (default : α) (decode : Toml → Option α) :
    Option α :=
  match es.lookup name with
  | none => some default
  | some v => decode v

def bool? : Toml → Option Bool
  | boolean b => some b
  | _ => none

def string? : Toml → Option String
  | string s => some s
  | _ => none

def natural? : Toml → Option Nat
  | integer (.ofNat n) => some n
  | _ => none

def strings? : Toml → Option (List String)
  | array _ items => items.mapM string?
  | _ => none

def stringMap? (v : Toml) : Option StringMap := do
  let es ← entries? v
  let pairs ← es.mapM fun e => (string? e.2).map fun s => (e.1, s)
  return .ofList pairs

end Toml

open Toml (members? member bool? string? strings? natural? stringMap?)

def ReferenceSettings.ofToml? (v : Toml) : Option ReferenceSettings := do
  let es ← members? ["wiki_mode", "view_url", "edit_url", "image_url"] v
  let standard : ReferenceSettings := {}
  let wikiMode ← member es "wiki_mode" standard.wikiMode bool?
  let viewUrl ← member es "view_url" standard.viewUrl string?
  let editUrl ← member es "edit_url" standard.editUrl string?
  let imageUrl ← member es "image_url" standard.imageUrl string?
  return { wikiMode, viewUrl, editUrl, imageUrl }

namespace TransformSettings

def iconsOfToml? (v : Toml) : Option IconNames := do
  let es ← members? ["mappings"] v
  member es "mappings" ∅ stringMap?

def maxStepsOfToml? (v : Toml) : Option Nat := do
  let es ← members? ["max_recursion"] v
  member es "max_recursion" (TransformSettings.maxSteps {}) natural?

def ofToml? (v : Toml) : Option TransformSettings := do
  let es ← members? ["enabled", "restricted", "icon", "macro"] v
  let standard : TransformSettings := {}
  let enabled ← member es "enabled" standard.enabled strings?
  let restricted ← member es "restricted" standard.restricted bool?
  let icons ← member es "icon" standard.icons iconsOfToml?
  let maxSteps ← member es "macro" standard.maxSteps maxStepsOfToml?
  return { enabled, restricted, icons, maxSteps }

end TransformSettings

namespace Settings

def ofEntries? (es : Toml.Entries) : Option Settings := do
  let references ← member es "references" {} ReferenceSettings.ofToml?
  let transforms ← member es "transformations" {} TransformSettings.ofToml?
  return { references, transforms }

/-- The settings of a text, unless it is malformed or a value is of the wrong kind. -/
def read? (text : String) : Option Settings := (Toml.read? text).bind ofEntries?

/-! ## Writing -/

def text (s : Settings) : String :=
  Toml.document [
    Toml.tableLines "references" [("wiki_mode", Toml.boolOf s.references.wikiMode),
      ("view_url", Toml.textOf s.references.viewUrl),
      ("edit_url", Toml.textOf s.references.editUrl),
      ("image_url", Toml.textOf s.references.imageUrl)],
    Toml.tableLines "transformations" [("enabled", Toml.textsOf s.transforms.enabled),
      ("restricted", Toml.boolOf s.transforms.restricted)],
    Toml.tableLines "transformations.icon.mappings"
      (s.transforms.icons.entries.map fun e => (e.1, Toml.textOf e.2)),
    Toml.tableLines "transformations.macro" [("max_recursion", s.transforms.maxSteps.repr)]]

end Settings

end DocTree
