import DocTree.Macro.Expansion
import DocTree.Settings
import DocTree.Transform.Pipeline

/-!
# Passes by name

A catalog makes passes from settings. Settings enable passes by name; the pipeline of settings has
one pass for each enabled name.
-/

namespace DocTree

/-- Makers of passes by name. -/
abbrev PassCatalog := KeyMap (TransformSettings → Pass)

/-- A name that no pass has. -/
structure UnknownPass where
  name : String
deriving DecidableEq, Repr

def UnknownPass.message (e : UnknownPass) : String := "Unknown transformation: " ++ e.name

namespace PassCatalog

/-- Expansion of macros and substitution of icons. -/
def standard (macros : MacroTable) : PassCatalog :=
  KeyMap.ofList [("macro", fun s => macros.pass s.maxSteps),
    ("icon", fun s => (IconTable.withExtra s.icons).pass)]

/-- The passes of names, up to the first name without one. -/
def passes (c : PassCatalog) (s : TransformSettings) : List String → Except UnknownPass (List Pass)
  | [] => .ok []
  | name :: names =>
    match c.get? name with
    | none => .error ⟨name⟩
    | some make =>
      match c.passes s names with
      | .error e => .error e
      | .ok ps => .ok (make s :: ps)

/-- The pipeline of the enabled passes. -/
def pipeline (c : PassCatalog) (s : TransformSettings) : Except UnknownPass Pipeline :=
  (c.passes s s.enabled).map Pipeline.ofList

end PassCatalog

end DocTree
