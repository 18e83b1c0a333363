import DocTree.Block

/-!
# Searching a tree

The blocks that satisfy a condition, among the children, the descendants, or the descendants and the
block itself, always in document order.
-/

namespace DocTree

/-- Which part of a tree a search covers. -/
inductive Axis
  | child
  | descendant
  | descendantOrSelf
deriving DecidableEq, Repr

namespace Block

mutual
/-- All matching blocks of a tree. -/
def collect (matching : Block → Bool) : Block → List Block
  | ⟨k, cs, ps⟩ =>
    let below := collectList matching cs
    if matching ⟨k, cs, ps⟩ then ⟨k, cs, ps⟩ :: below else below
def collectList (matching : Block → Bool) : List Block → List Block
  | [] => []
  | c :: cs => c.collect matching ++ collectList matching cs
end

mutual
/-- The first matching block of a tree. -/
def first? (matching : Block → Bool) : Block → Option Block
  | ⟨k, cs, ps⟩ => if matching ⟨k, cs, ps⟩ then some ⟨k, cs, ps⟩ else firstList? matching cs
def firstList? (matching : Block → Bool) : List Block → Option Block
  | [] => none
  | c :: cs =>
    match c.first? matching with
    | some b => some b
    | none => firstList? matching cs
end

def blocks (b : Block) (matching : Block → Bool) : Axis → List Block
  | .child => b.children.filter matching
  | .descendant => collectList matching b.children
  | .descendantOrSelf => b.collect matching

def firstBlock? (b : Block) (matching : Block → Bool) : Axis → Option Block
  | .child => b.children.find? matching
  | .descendant => firstList? matching b.children
  | .descendantOrSelf => b.first? matching

end Block

end DocTree
