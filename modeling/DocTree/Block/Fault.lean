import DocTree.Block.Path

/-!
# Trees that events cannot express

Events say nothing about the children of a leaf, nor about the parameters of a kind whose events
carry none. `Block.fault?` finds the first block, in document order, that has such content.
-/

namespace DocTree

inductive FaultCause
  | leafWithChildren
  | unemittedParameters
deriving DecidableEq, Repr

/-- A block whose content no event would carry, and where it stands. -/
structure Fault where
  cause : FaultCause
  tag : Tag
  path : Path
deriving DecidableEq, Repr

namespace Fault

def message (f : Fault) : String :=
  f.tag.title ++ " block at " ++ f.path.display ++
    match f.cause with
    | .leafWithChildren => " cannot have children"
    | .unemittedParameters => " cannot have parameters"

/-- The same fault seen from a parent in which the tree is the child at an index. -/
def below (i : Nat) (f : Fault) : Fault := { f with path := i :: f.path }

end Fault

namespace Block

/-- The fault of a block itself, whatever its children; children of a leaf come first. -/
def ownFault? (b : Block) : Option Fault :=
  if b.isContainer = false ∧ b.children ≠ [] then some ⟨.leafWithChildren, b.tag, []⟩
  else if b.tag.emitsParameters = false ∧ b.parameters ≠ ∅ then
    some ⟨.unemittedParameters, b.tag, []⟩
  else none

mutual
/-- The first fault in document order. -/
def fault? : Block → Option Fault
  | ⟨k, cs, ps⟩ =>
    match ownFault? ⟨k, cs, ps⟩ with
    | some f => some f
    | none => faultFrom? 0 cs
/-- The first fault in a list of siblings whose first has index `i`. -/
def faultFrom? (i : Nat) : List Block → Option Fault
  | [] => none
  | c :: cs =>
    match c.fault? with
    | some f => some (f.below i)
    | none => faultFrom? (i + 1) cs
end

/-- Traversal expresses the whole tree. -/
def Valid (b : Block) : Prop := b.fault? = none

instance (b : Block) : Decidable b.Valid := inferInstanceAs (Decidable (_ = _))

/-- What `Valid` asks of a block itself, whatever its children. -/
theorem ownFault?_eq_none_iff {k : Kind} {cs : List Block} {ps : StringMap} :
    ownFault? ⟨k, cs, ps⟩ = none ↔
      (k.tag.isContainer = false → cs = []) ∧ (k.tag.emitsParameters = false → ps = ∅) := by
  unfold ownFault? isContainer tag
  split
  · rename_i h
    simp only [reduceCtorEq, false_iff, not_and]
    exact fun hc => absurd (hc h.1) h.2
  · split
    · rename_i h
      simp only [reduceCtorEq, false_iff, not_and]
      exact fun _ hp => absurd (hp h.1) h.2
    · rename_i hc hp
      simp only [true_iff]
      exact ⟨fun h => by simpa [h] using hc, fun h => by simpa [h] using hp⟩

theorem faultFrom?_eq_none_iff {i : Nat} {cs : List Block} :
    faultFrom? i cs = none ↔ ∀ c ∈ cs, c.Valid := by
  induction cs generalizing i with
  | nil => simp [faultFrom?]
  | cons c cs ih =>
    unfold faultFrom?
    cases h : c.fault? with
    | none => simp [ih, Valid, h]
    | some f => simp [Valid, h]

/-- A tree is valid if each block in it is fit for itself. -/
theorem valid_mk_iff {k : Kind} {cs : List Block} {ps : StringMap} :
    Valid ⟨k, cs, ps⟩ ↔
      ((k.tag.isContainer = false → cs = []) ∧ (k.tag.emitsParameters = false → ps = ∅)) ∧
        ∀ c ∈ cs, c.Valid := by
  rw [← ownFault?_eq_none_iff, ← @faultFrom?_eq_none_iff 0, Valid, fault?]
  cases ownFault? ⟨k, cs, ps⟩ <;> simp

end Block

end DocTree
