import DocTree.Ranking
import DocTree.Text.Quoted
import DocTree.Transform

/-!
# Pipelines

A pipeline holds passes by ascending priority, passes of one priority in the order in which they
were added. A run gives each allowed pass the tree that the one before it left, and ends with the
first failure.
-/

namespace DocTree

/-- Passes by ascending priority. -/
structure Pipeline where
  passes : List Pass := []
  sorted : passes.Pairwise (fun p q => (p.priority : Int) ≤ q.priority) := by
    exact List.Pairwise.nil

namespace Pipeline

instance : Inhabited Pipeline := ⟨{}⟩

def add (l : Pipeline) (p : Pass) : Pipeline where
  passes := Ranking.insert (fun q => (q.priority : Int)) p l.passes
  sorted := Ranking.insert_sorted _ l.sorted

def ofList (ps : List Pass) : Pipeline := ps.foldl add {}

def names (l : Pipeline) : List String := l.passes.map (·.name)

def size (l : Pipeline) : Nat := l.passes.length

def describe (l : Pipeline) : String :=
  "DefaultTransformationManager \x7b transformations: ["
    ++ ", ".intercalate (l.names.map Text.quoted) ++ "] \x7d"

/-! ## Running -/

/-- Run passes in turn. A failure is reported with the name of its pass. -/
def runAll (ctx : Context) : List Pass → Block → Transformed
  | [], tree => { tree }
  | p :: ps, tree =>
    if p.allowed ctx then
      let left := p.run ctx tree
      match left.failure with
      | none => runAll ctx ps left.tree
      | some e => { left with failure := some (.pass p.name e) }
    else runAll ctx ps tree

def run (l : Pipeline) (ctx : Context) (tree : Block) : Transformed := runAll ctx l.passes tree

theorem runAll_filter_allowed (ctx : Context) (ps : List Pass) (tree : Block) :
    runAll ctx (ps.filter (·.allowed ctx)) tree = runAll ctx ps tree := by
  induction ps generalizing tree with
  | nil => rfl
  | cons p ps ih =>
    by_cases h : p.allowed ctx
    · simp only [List.filter_cons, h, if_true, runAll]
      cases (p.run ctx tree).failure with
      | none => exact ih _
      | some e => rfl
    · simp only [List.filter_cons, h, runAll]
      exact ih tree

theorem runAll_append (ctx : Context) (ps qs : List Pass) (tree : Block) :
    runAll ctx (ps ++ qs) tree =
      match (runAll ctx ps tree).failure with
      | none => runAll ctx qs (runAll ctx ps tree).tree
      | some _ => runAll ctx ps tree := by
  induction ps generalizing tree with
  | nil => rfl
  | cons p ps ih =>
    by_cases h : p.allowed ctx
    · simp only [List.cons_append, runAll, h, if_true]
      cases (p.run ctx tree).failure with
      | none => exact ih _
      | some e => rfl
    · simp only [List.cons_append, runAll, h]
      exact ih tree

end Pipeline

end DocTree
