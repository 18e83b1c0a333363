import DocTree.Block

/-!
# Transformations of trees

A pass changes a tree. It is given a context that stays the same for all passes of a run, and leaves
a tree also when it fails: the one it had reached.
-/

namespace DocTree

/-- What a run of passes knows besides the tree. -/
structure Context where
  /-- The tree as it was before the run. -/
  snapshot : Option Block := none
  /-- The dialect in which the tree was written. -/
  dialect : Option Dialect := none
  /-- The dialect into which the tree will be rendered. -/
  target : Option Dialect := none
  /-- A name under which results of the run may be kept. -/
  id : Option String := none
  /-- The tree is not trusted: what is unsafe on such trees must not run. -/
  restricted : Bool := false
deriving Inhabited

/-! ## Failures -/

/-- Why a macro call was not expanded. -/
inductive MacroError
  | invalidParameter (name problem : String)
  | inlineNotSupported
  | missingContent
  | execution (problem : String)
deriving DecidableEq, Repr

def MacroError.message : MacroError → String
  | invalidParameter name problem => "Invalid parameter [" ++ name ++ "]: " ++ problem
  | inlineNotSupported => "Macro cannot be used inline"
  | missingContent => "Missing macro content"
  | execution problem => "Macro execution failed: " ++ problem

/-- Why a tree was not transformed to the end. -/
inductive TransformError
  | expansion (name : String) (cause : MacroError)
  | failed (problem : String)
  | pass (name : String) (cause : TransformError)
deriving DecidableEq, Repr

namespace TransformError

def message : TransformError → String
  | expansion name cause => "Failed to execute macro [" ++ name ++ "]: " ++ cause.message
  | failed problem => problem
  | pass name cause => "Transformation [" ++ name ++ "] failed: " ++ cause.message

/-- The pass that failed, if a pipeline reports it. -/
def passName? : TransformError → Option String
  | pass name _ => some name
  | _ => none

end TransformError

/-! ## Passes -/

/-- The tree that a transformation leaves, and its failure if there was one. -/
structure Transformed where
  tree : Block
  failure : Option TransformError := none
deriving Inhabited

/-- A transformation with a name and with a place among others. -/
structure Pass where
  name : String
  /-- Passes run by ascending priority. -/
  priority : Nat := 1000
  /-- The pass may run on trees that are not trusted. -/
  restrictedSafe : Bool := false
  run : Context → Block → Transformed
deriving Inhabited

namespace Pass

/-- Whether the pass runs in a context. -/
def allowed (ctx : Context) (p : Pass) : Bool := !ctx.restricted || p.restrictedSafe

end Pass

end DocTree
