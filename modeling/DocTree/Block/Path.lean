import DocTree.Block

/-!
# Positions in a tree

A position is the list of child indices on the way from the root. `get?` finds a block, `edit?`
changes one, `replaceAt?` puts blocks in the place of one, and `paths` lists all positions in
document order.
-/

namespace DocTree

/-- Child indices on the way from the root; positions are ordered lexicographically. -/
abbrev Path := List Nat

namespace Path

def display (p : Path) : String := "/" ++ "/".intercalate (p.map Nat.repr)

/-- The root has no parent. -/
def parent? (p : Path) : Option Path := if p.isEmpty then none else some p.dropLast

def child (p : Path) (index : Nat) : Path := p ++ [index]

end Path

namespace Block

/-! ## Finding -/

def get? (b : Block) : Path → Option Block
  | [] => some b
  | i :: p =>
    match b.children[i]? with
    | none => none
    | some c => c.get? p

def parentOf? (b : Block) (p : Path) : Option Block := p.parent?.bind b.get?

@[simp] theorem get?_nil (b : Block) : b.get? [] = some b := rfl

theorem get?_append (b : Block) (p q : Path) : b.get? (p ++ q) = (b.get? p).bind (·.get? q) := by
  induction p generalizing b with
  | nil => rfl
  | cons i p ih =>
    simp only [List.cons_append, get?]
    cases b.children[i]? with
    | none => rfl
    | some c => exact ih c

/-! ## Editing -/

/-- Change the block at a position. -/
def edit? (f : Block → Block) (b : Block) : Path → Option Block
  | [] => some (f b)
  | i :: p =>
    match b.children[i]? with
    | none => none
    | some c =>
      match c.edit? f p with
      | none => none
      | some c' => some { b with children := b.children.set i c' }

/-- Put blocks, inside its parent, for the block at a position. The answer is the block that was
there and the new tree; the root has no parent and cannot be replaced. -/
def replaceAt? (b : Block) (p : Path) (blocks : List Block) : Option (Block × Block) :=
  match p.getLast?, b.get? p with
  | some i, some old => (b.edit? (·.replaceChild i blocks) p.dropLast).map fun b' => (old, b')
  | _, _ => none

/-! ## All positions -/

mutual
/-- The positions of all blocks, in document order. -/
def paths : Block → List Path
  | ⟨_, cs, _⟩ => [] :: pathsFrom 0 cs
/-- The positions in a list of siblings whose first has index `i`. -/
def pathsFrom (i : Nat) : List Block → List Path
  | [] => []
  | c :: cs => c.paths.map (i :: ·) ++ pathsFrom (i + 1) cs
end

end Block

end DocTree
