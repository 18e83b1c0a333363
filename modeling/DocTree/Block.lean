import DocTree.Block.Kind

/-!
# Blocks

A document is a tree of blocks. A block has a kind, an ordered list of children and parameters. The
type admits children below a leaf and parameters on any kind; `Block.fault?` tells which trees use
that freedom.
-/

namespace DocTree

structure Block where
  kind : Kind
  children : List Block
  parameters : StringMap

namespace Block

instance : Inhabited Block := ⟨⟨default, [], ∅⟩⟩

/-! ## Equality -/

mutual
def decEq : (a b : Block) → Decidable (a = b)
  | ⟨k, cs, ps⟩, ⟨k', cs', ps'⟩ =>
    if hk : k = k' then
      if hp : ps = ps' then
        match decEqList cs cs' with
        | isTrue h => isTrue (by rw [hk, hp, h])
        | isFalse h => isFalse fun e => h (Block.mk.inj e).2.1
      else isFalse fun e => hp (Block.mk.inj e).2.2
    else isFalse fun e => hk (Block.mk.inj e).1
def decEqList : (as bs : List Block) → Decidable (as = bs)
  | [], [] => isTrue rfl
  | [], _ :: _ => isFalse nofun
  | _ :: _, [] => isFalse nofun
  | a :: as, b :: bs =>
    match decEq a b with
    | isTrue h =>
      match decEqList as bs with
      | isTrue h' => isTrue (by rw [h, h'])
      | isFalse h' => isFalse fun e => h' (List.cons.inj e).2
    | isFalse h => isFalse fun e => h (List.cons.inj e).1
end

instance : DecidableEq Block := decEq

/-! ## Building blocks -/

def ofContainer (c : Container) (children : List Block) : Block := ⟨.container c, children, ∅⟩

def ofLeaf (l : Leaf) : Block := ⟨.leaf l, [], ∅⟩

def withParameters (b : Block) (parameters : StringMap) : Block := { b with parameters }

def setParameter (b : Block) (name value : String) : Block :=
  { b with parameters := b.parameters.insert name value }

def document (metadata : StringMap) (children : List Block) : Block :=
  ofContainer (.document metadata) children

def header (level : HeaderLevel) (id : Option String) (children : List Block) : Block :=
  ofContainer (.header level id) children

def paragraph (children : List Block) : Block := ofContainer .paragraph children

def group (children : List Block) : Block := ofContainer .group children

def link (target : Target) (label : List Block) : Block := ofContainer (.link target) label

def image (target : Target) : Block := ofLeaf (.image target)

def macroCall (call : Call) (parameters : StringMap) : Block :=
  (ofLeaf (.macroCall call)).withParameters parameters

def macroMarker (call : Call) (parameters : StringMap) (children : List Block) : Block :=
  (ofContainer (.macroMarker call) children).withParameters parameters

def word (text : String) : Block := ofLeaf (.word text)

def space : Block := ofLeaf .space

def specialSymbol (symbol : Char) : Block := ofLeaf (.specialSymbol symbol)

/-! ## Reading blocks -/

def tag (b : Block) : Tag := b.kind.tag

def isContainer (b : Block) : Bool := b.tag.isContainer

def parameter? (b : Block) (name : String) : Option String := b.parameters.get? name

/-- The macro call that the block is, if it is one. -/
def call? (b : Block) : Option Call :=
  match b.kind with
  | .leaf (.macroCall call) => some call
  | _ => none

/-! ## Size -/

mutual
/-- The number of blocks in a tree. -/
def size : Block → Nat
  | ⟨_, cs, _⟩ => 1 + sizeList cs
def sizeList : List Block → Nat
  | [] => 0
  | b :: bs => b.size + sizeList bs
end

/-! ## Induction -/

/-- Induction over a list of siblings: the first one's children come before it, and the ones after
it are siblings of their own. -/
theorem forestInduction {P : List Block → Prop} (nil : P [])
    (cons : ∀ k cs ps bs, P cs → P bs → P (⟨k, cs, ps⟩ :: bs)) : ∀ bs, P bs
  | [] => nil
  | ⟨k, cs, ps⟩ :: bs =>
    cons k cs ps bs (forestInduction nil cons cs) (forestInduction nil cons bs)

/-! ## Editing the children -/

def push (b child : Block) : Block := { b with children := b.children ++ [child] }

/-- Put blocks before the child at an index; an index past the end appends. -/
def insertChildren (b : Block) (index : Nat) (blocks : List Block) : Block :=
  { b with children := b.children.take index ++ blocks ++ b.children.drop index }

/-- Put blocks for the child at an index. -/
def replaceChild (b : Block) (index : Nat) (blocks : List Block) : Block :=
  if index < b.children.length then
    { b with children := b.children.take index ++ blocks ++ b.children.drop (index + 1) }
  else b

def removeChild (b : Block) (index : Nat) : Block := b.replaceChild index []

end Block

end DocTree
