import DocTree.Catalog
import DocTree.Settings.Load
import DocTree.Transform.Catalog

/-!
# Commands

What the program does: write the events of a tree, resolve a reference, describe a dialect. A
command asks a file system for what it needs and ends with a text or with an error.
-/

namespace DocTree

/-! ## Errors -/

/-- Why a command failed. -/
inductive AppError
  | inputMissing (path : String)
  | inputUnreadable (path : String)
  | inputMalformed (path : String) (cause : SourceError)
  | settingsMissing (path : String)
  | settingsOfFile (path : String) (cause : SettingsError)
  | settingsOfDirectory (dir : String) (cause : SettingsError)
  | passUnknown (cause : UnknownPass)
  | transformFailed (path : String) (cause : TransformError)
  | outputFailed (path : String)
  | dialectMalformed (id : String) (cause : DialectError)
deriving DecidableEq, Repr

/-- The messages of an error and of its causes, outermost first. -/
def SourceError.messages : SourceError → List String
  | e@(.inexpressible f) => [e.message, f.message]
  | e => [e.message]

def TransformError.messages : TransformError → List String
  | e@(.pass _ cause) => e.message :: cause.messages
  | e@(.expansion _ cause) => [e.message, cause.message]
  | e@(.failed _) => [e.message]

namespace AppError

def message : AppError → String
  | inputMissing path => "Input file not found: " ++ path
  | inputUnreadable path => "Failed to read input: " ++ path
  | inputMalformed path _ => "Failed to parse tree: " ++ path
  | settingsMissing path => "Config file not found: " ++ path
  | settingsOfFile path _ => "Failed to load config: " ++ path
  | settingsOfDirectory dir _ => "Failed to load config from: " ++ dir
  | passUnknown _ => "Invalid transformation settings"
  | transformFailed path _ => "Failed to transform: " ++ path
  | outputFailed path => "Failed to write output: " ++ path
  | dialectMalformed id _ => "Invalid syntax id: " ++ id

/-- The messages of the causes, outermost first. -/
def causes : AppError → List String
  | inputMalformed _ cause => cause.messages
  | settingsOfFile _ cause | settingsOfDirectory _ cause => [cause.message]
  | passUnknown cause => [cause.message]
  | transformFailed _ cause => cause.messages
  | dialectMalformed _ cause => [cause.message]
  | _ => []

def messages (e : AppError) : List String := e.message :: e.causes

end AppError

/-! ## Events -/

namespace App

/-- The context in which the tree of an input is transformed. -/
def context (input : String) (s : TransformSettings) (tree : Block) : Context where
  snapshot := some tree
  dialect := some .json
  target := some .event
  id := some input
  restricted := s.restricted

/-- Run the passes that settings enable on the tree of an input. -/
def transformed (input : String) (s : TransformSettings) (tree : Block) : Except AppError Block :=
  match (PassCatalog.standard ∅).pipeline s with
  | .error e => .error (.passUnknown e)
  | .ok passes =>
    let left := passes.run (context input s tree) tree
    match left.failure with
    | none => .ok left.tree
    | some e => .error (.transformFailed input e)

variable {m : Type → Type} [Monad m]

/-- The settings of a given file, or else of a directory. -/
def settings (fs : FileAccess m) (config : Option String) (dir : String) :
    m (Except AppError Settings) := do
  match config with
  | some path =>
    if ← fs.isPresent path then
      return (← Settings.load fs path).mapError (.settingsOfFile path)
    else return .error (.settingsMissing path)
  | none => return (← Settings.loadFrom fs dir).mapError (.settingsOfDirectory dir)

/-- The events of an input file. Settings are looked for next to the input, and only once its tree
has been read. -/
def renderEvents (fs : FileAccess m) (input : String) (transform : Bool)
    (config : Option String) : m (Except AppError String) := do
  if ← fs.isPresent input then
    match ← fs.read? input with
    | none => return .error (.inputUnreadable input)
    | some source =>
      match Block.ofSource source with
      | .error e => return .error (.inputMalformed input e)
      | .ok tree =>
        if transform then
          match ← settings fs config (FilePath.directory input) with
          | .error e => return .error e
          | .ok s => return (transformed input s.transforms tree).map Block.eventText
        else return .ok tree.eventText
  else return .error (.inputMissing input)

/-- Write the events of an input to a file. -/
def writeEvents (fs : FileAccess m) (input : String) (transform : Bool)
    (config : Option String) (output : String) : m (Except AppError Unit) := do
  match ← renderEvents fs input transform config with
  | .error e => return .error e
  | .ok text =>
    if ← fs.write output text then return .ok () else return .error (.outputFailed output)

/-! ## References and dialects -/

/-- The form for readers of a raw reference, resolved as a link or as an image. -/
def describeReference (raw : String) (image : Bool) (s : ReferenceSettings) : String :=
  (if image then s.resolveImage raw else s.resolveLink raw).display

/-- A dialect's written form and name, and whether it can be read and written. -/
def describeDialect (id : String) : Except AppError String :=
  match Dialect.parse id with
  | .error e => .error (.dialectMalformed id e)
  | .ok d =>
    let yesNo (b : Bool) : String := if b then "yes" else "no"
    .ok (d.idText ++ "\nname: " ++ d.family.name
      ++ "\nparser: " ++ yesNo (ParserCatalog.standard.contains d.idText)
      ++ "\nrenderer: " ++ yesNo (RendererCatalog.standard.contains d.idText))

end App

end DocTree
