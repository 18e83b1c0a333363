import DocTree.Chain.Tracker
import DocTree.Listener

/-!
# Chains of stages

A chain has places in a fixed order, one for each kind of stage. At each place stand one or more
stages of that kind, of which the topmost is active; a stage may be shadowed by a new one for a
nested document and come back later. The stage that a place was made with is never removed.

This module holds the chain itself; `DocTree.Chain.Delivery` sends events through it.
-/

namespace DocTree

/-! ## Stages -/

/-- A stage: a tracker, a listener that is asked before an event goes on, or a stage of a type of
its own. Listeners keep their state in a world of type `ω`. -/
inductive Stage (κ ω : Type)
  | tracker (t : Tracker)
  | listener (kind : StageKind) (l : Listener ω)
  | custom (k : κ)

/-- The stages at one place, the active one on top. -/
structure Place (κ ω : Type) where
  kind : StageKind
  top : Stage κ ω
  below : List (Stage κ ω)

structure Chain (κ ω : Type) where
  places : List (Place κ ω) := []

/-- What a stage makes of an event before it goes on. -/
inductive Verdict
  | forward
  | swallow
  | fail (e : ListenerError)
deriving DecidableEq, Repr

/-- A stage after it has seen an event come. -/
structure Arrival (κ ω : Type) where
  stage : κ
  world : ω
  /-- Shadow all stackable stages before the event goes on. -/
  shadowAll : Bool := false
  verdict : Verdict := .forward

/-- A stage after an event has gone on. -/
structure Departure (κ ω : Type) where
  stage : κ
  world : ω
  /-- Bring back all shadowed stages. -/
  restoreAll : Bool := false

/-- The behaviour of a type of stages. -/
class StageBehaviour (κ : Type) (ω : outParam Type) where
  kind : κ → StageKind
  arrive : Event → Chain κ ω → κ → ω → Arrival κ ω := fun _ _ k w => { stage := k, world := w }
  depart : Event → Chain κ ω → κ → ω → Departure κ ω := fun _ _ k w => { stage := k, world := w }
  /-- Whether the stage may be shadowed for a nested document. -/
  isStackable : κ → Bool := fun _ => false
  /-- The stage to shadow this one with, if any, and this one after it was asked. -/
  spawn : κ → κ × Option (Stage κ ω) := fun k => (k, none)

variable {κ ω : Type} [StageBehaviour κ ω]

namespace Stage

def kind : Stage κ ω → StageKind
  | tracker t => t.kind
  | listener k _ => k
  | custom k => StageBehaviour.kind k

def isStackable : Stage κ ω → Bool
  | tracker t => t.fresh?.isSome
  | listener .. => false
  | custom k => StageBehaviour.isStackable k

/-- The stage to shadow this one with, if any, and this one after it was asked. -/
def spawn : Stage κ ω → Stage κ ω × Option (Stage κ ω)
  | tracker t => (tracker t, t.fresh?.map tracker)
  | listener k l => (listener k l, none)
  | custom k =>
    let (k', fresh) := StageBehaviour.spawn k
    (custom k', fresh)

end Stage

/-! ## Places -/

namespace Place

/-- The number of stages, counting the active one. -/
def depth (p : Place κ ω) : Nat := p.below.length + 1

def push (p : Place κ ω) (s : Stage κ ω) : Place κ ω :=
  { p with top := s, below := p.top :: p.below }

/-- The active stage and the place without it; the last stage stays. -/
def pop? (p : Place κ ω) : Option (Stage κ ω × Place κ ω) :=
  match p.below with
  | [] => none
  | s :: below => some (p.top, { p with top := s, below })

/-- The level of a stage is the number of stages below it. -/
def topLevel (p : Place κ ω) : Nat := p.below.length

/-- The stage at a level, unless it was removed. -/
def at? (p : Place κ ω) (level : Nat) : Option (Stage κ ω) :=
  if level = p.topLevel then some p.top
  else if level < p.topLevel then p.below[p.topLevel - 1 - level]?
  else none

/-- Put a changed stage back at its level; one that was removed is dropped. -/
def setAt (p : Place κ ω) (level : Nat) (s : Stage κ ω) : Place κ ω :=
  if level = p.topLevel then { p with top := s }
  else if level < p.topLevel then { p with below := p.below.set (p.topLevel - 1 - level) s }
  else p

/-- Shadow the active stage if it is stackable and has a stage to offer. -/
def shadow (p : Place κ ω) : Place κ ω :=
  if p.top.isStackable then
    match p.top.spawn with
    | (top, some fresh) => { p with top }.push fresh
    | (top, none) => { p with top }
  else p

/-- Remove the active stage if it is stackable and not the last one. -/
def restore (p : Place κ ω) : Place κ ω :=
  if p.top.isStackable then
    match p.pop? with
    | some (_, p') => p'
    | none => p
  else p

end Place

/-! ## Chains -/

/-- Why a chain was not changed as asked. -/
inductive ChainError
  | unknownStage (kind : StageKind)
  | notStackable (kind : StageKind)
  | duplicateStage (kind : StageKind)
  | kindMismatch (expected found : StageKind)
deriving DecidableEq, Repr

def ChainError.message : ChainError → String
  | .unknownStage k => "No stage of kind [" ++ k.display ++ "] in the chain"
  | .notStackable k => "Stage [" ++ k.display ++ "] is not stackable"
  | .duplicateStage k => "Stage [" ++ k.display ++ "] is already part of the chain"
  | .kindMismatch expected found =>
    "Cannot push a [" ++ found.display ++ "] listener onto stage [" ++ expected.display ++ "]"

namespace Chain

/-! ### Looking -/

/-- The kinds in order. -/
def kinds (c : Chain κ ω) : List StageKind := c.places.map (·.kind)

def contains (c : Chain κ ω) (kind : StageKind) : Bool := c.kinds.contains kind

def place? (c : Chain κ ω) (kind : StageKind) : Option (Place κ ω) :=
  c.places.find? fun p => p.kind = kind

/-- The active stage of a kind. -/
def active? (c : Chain κ ω) (kind : StageKind) : Option (Stage κ ω) := (c.place? kind).map (·.top)

def depth (c : Chain κ ω) (kind : StageKind) : Nat := ((c.place? kind).map Place.depth).getD 0

/-- The kind after a kind in a list. -/
def kindAfter (kind : StageKind) : List StageKind → Option StageKind
  | [] => none
  | k :: ks => if k = kind then ks.head? else kindAfter kind ks

def nextKind? (c : Chain κ ω) (kind : StageKind) : Option StageKind := kindAfter kind c.kinds

def firstKind? (c : Chain κ ω) : Option StageKind := c.kinds.head?

/-- The form for readers: each kind with its depth. -/
def describe (c : Chain κ ω) : String :=
  "ListenerChain \x7b stages: [" ++
    ", ".intercalate (c.places.map fun p => "(" ++ p.kind.describe ++ ", " ++ p.depth.repr ++ ")")
    ++ "] \x7d"

/-! ### Changing -/

def modify (c : Chain κ ω) (kind : StageKind) (f : Place κ ω → Place κ ω) : Chain κ ω where
  places := c.places.map fun p => if p.kind = kind then f p else p

/-- Add a place at the end. -/
def add (c : Chain κ ω) (s : Stage κ ω) : Except ChainError (Chain κ ω) :=
  if c.contains s.kind then .error (.duplicateStage s.kind)
  else .ok { places := c.places ++ [⟨s.kind, s, []⟩] }

/-- Shadow the active stage of a kind with a given stage of that kind. -/
def push (c : Chain κ ω) (kind : StageKind) (s : Stage κ ω) : Except ChainError (Chain κ ω) :=
  if s.kind ≠ kind then .error (.kindMismatch kind s.kind)
  else if c.contains kind then .ok (c.modify kind (·.push s))
  else .error (.unknownStage kind)

/-- Shadow the active stage of a kind with the one it has to offer. The active stage stays asked
even if nothing comes of it. -/
def shadow (c : Chain κ ω) (kind : StageKind) : Except ChainError Unit × Chain κ ω :=
  match c.active? kind with
  | none => (.error (.unknownStage kind), c)
  | some s =>
    if s.isStackable then
      let asked := c.modify kind fun p => { p with top := s.spawn.1 }
      match s.spawn.2 with
      | none => (.error (.notStackable kind), asked)
      | some fresh =>
        match asked.push kind fresh with
        | .error e => (.error e, asked)
        | .ok pushed => (.ok (), pushed)
    else (.error (.notStackable kind), c)

/-- Remove the active stage of a kind, unless it is the last one. -/
def pop (c : Chain κ ω) (kind : StageKind) : Except ChainError (Option (Stage κ ω) × Chain κ ω) :=
  match c.place? kind with
  | none => .error (.unknownStage kind)
  | some p =>
    match p.pop? with
    | none => .ok (none, c)
    | some (s, p') => .ok (some s, c.modify kind fun _ => p')

/-- Shadow every stackable stage, for a nested document. -/
def shadowAll (c : Chain κ ω) : Chain κ ω where
  places := c.places.map Place.shadow

/-- Bring back what `shadowAll` has shadowed. -/
def restoreAll (c : Chain κ ω) : Chain κ ω where
  places := c.places.map Place.restore

end Chain

end DocTree
