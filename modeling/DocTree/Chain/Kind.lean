import DocTree.Text.Quoted

/-!
# Kinds of stage

A chain has at most one place for each kind of stage. Besides the built-in kinds there is one for
every name.
-/

namespace DocTree

inductive StageKind
  | newLineRun
  | surroundings
  | emptiness
  | metadataScopes
  | printer
  | custom (name : String)
deriving DecidableEq, Repr, Inhabited

namespace StageKind

def builtIn : List StageKind := [newLineRun, surroundings, emptiness, metadataScopes, printer]

/-- The name in messages. -/
def display : StageKind → String
  | newLineRun => "new-line-state"
  | surroundings => "block-state"
  | emptiness => "empty-block"
  | metadataScopes => "meta-data-state"
  | printer => "printer"
  | custom name => name

/-- The name in the description of a chain. -/
def describe : StageKind → String
  | newLineRun => "NewLineState"
  | surroundings => "BlockState"
  | emptiness => "EmptyBlock"
  | metadataScopes => "MetaDataState"
  | printer => "Printer"
  | custom name => "Custom(" ++ Text.quoted name ++ ")"

/-- The built-in kind of a name, or a custom kind. -/
def ofName (name : String) : StageKind :=
  (builtIn.find? fun k => k.display == name).getD (custom name)

end StageKind

end DocTree
