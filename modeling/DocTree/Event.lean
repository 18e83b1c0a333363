import DocTree.Block

/-!
# Events

A tree is delivered as a sequence of events: a container is entered and left, a leaf is met once. An
event carries the data of its block's kind, and the block's parameters if the events of that kind
carry parameters. The events of a container on the way in and out carry the same.
-/

namespace DocTree

/-- What the events of a container carry. -/
structure Opening where
  kind : Container
  parameters : StringMap
  carried : kind.tag.emitsParameters = false → parameters = ∅
deriving DecidableEq

/-- What the event of a leaf carries. -/
structure Atom where
  kind : Leaf
  parameters : StringMap
  carried : kind.tag.emitsParameters = false → parameters = ∅
deriving DecidableEq

namespace Opening

/-- Parameters that the events of the kind do not carry are left out. -/
def ofBlock (kind : Container) (parameters : StringMap) : Opening where
  kind
  parameters := if kind.tag.emitsParameters then parameters else ∅
  carried := by intro h; simp [h]

end Opening

namespace Atom

/-- Parameters that the event of the kind does not carry are left out. -/
def ofBlock (kind : Leaf) (parameters : StringMap) : Atom where
  kind
  parameters := if kind.tag.emitsParameters then parameters else ∅
  carried := by intro h; simp [h]

end Atom

inductive Event
  | enter (o : Opening)
  | exit (o : Opening)
  | leaf (a : Atom)
deriving DecidableEq

instance : Inhabited Event := ⟨.leaf (.ofBlock .newLine ∅)⟩

/-! ## Kinds of event -/

/-- An event without the data it carries. -/
inductive EventKind
  | enter (t : ContainerTag)
  | exit (t : ContainerTag)
  | leaf (t : LeafTag)
deriving DecidableEq, Repr, Inhabited

namespace EventKind

def name : EventKind → String
  | enter t => "begin" ++ t.title
  | exit t => "end" ++ t.title
  | leaf t => "on" ++ t.title

def isEnter : EventKind → Bool
  | enter _ => true
  | _ => false

def isExit : EventKind → Bool
  | exit _ => true
  | _ => false

/-- Enters are told from other events by their names. -/
theorem isEnter_iff_name (k : EventKind) :
    k.isEnter = true ↔ "begin".toList <+: k.name.toList := by
  cases k with
  | enter t => simp [isEnter, name]
  | exit t => simp [isEnter, name]
  | leaf t => simp [isEnter, name]

/-- So are exits. -/
theorem isExit_iff_name (k : EventKind) : k.isExit = true ↔ "end".toList <+: k.name.toList := by
  cases k with
  | enter t => simp [isExit, name]
  | exit t => simp [isExit, name]
  | leaf t => simp [isExit, name]

/-- The kind of event that an exit closes. -/
def opening? : EventKind → Option EventKind
  | exit t => some (enter t)
  | _ => none

end EventKind

namespace Event

def kind : Event → EventKind
  | enter o => .enter o.kind.tag
  | exit o => .exit o.kind.tag
  | leaf a => .leaf a.kind.tag

/-- The parameters of the block, for kinds whose events carry them. -/
def parameters? : Event → Option StringMap
  | enter o | exit o => if o.kind.tag.emitsParameters then some o.parameters else none
  | leaf a => if a.kind.tag.emitsParameters then some a.parameters else none

/-- The word that the event is about, if it is a word. -/
def word? : Event → Option String
  | leaf ⟨.word text, _, _⟩ => some text
  | _ => none

end Event

/-! ## The events of a tree -/

namespace Block

/-- The event at which a container is entered. -/
def enterEvent? (b : Block) : Option Event :=
  match b.kind with
  | .container c => some (.enter (.ofBlock c b.parameters))
  | .leaf _ => none

/-- The event at which a container is left. -/
def exitEvent? (b : Block) : Option Event :=
  match b.kind with
  | .container c => some (.exit (.ofBlock c b.parameters))
  | .leaf _ => none

/-- The one event of a leaf. -/
def leafEvent? (b : Block) : Option Event :=
  match b.kind with
  | .container _ => none
  | .leaf l => some (.leaf (.ofBlock l b.parameters))

mutual
/-- The events of a tree in document order; children of a leaf have none. -/
def events : Block → List Event
  | ⟨.container c, cs, ps⟩ =>
    .enter (.ofBlock c ps) :: eventsList cs ++ [.exit (.ofBlock c ps)]
  | ⟨.leaf l, _, ps⟩ => [.leaf (.ofBlock l ps)]
def eventsList : List Block → List Event
  | [] => []
  | b :: bs => b.events ++ eventsList bs
end

theorem eventsList_append (as bs : List Block) :
    eventsList (as ++ bs) = eventsList as ++ eventsList bs := by
  induction as with
  | nil => rfl
  | cons a as ih => simp [eventsList, ih]

end Block

end DocTree
