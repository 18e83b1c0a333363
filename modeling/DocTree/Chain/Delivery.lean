import DocTree.Chain

/-!
# Events in a chain

An event goes from place to place in the order of the chain. At each place the active stage sees it
come, then the event goes on to the place after the stage's kind, then the stage sees that it has
gone on. A stage may also keep an event back or refuse it. What a stage does on arrival is seen by
all later stages while the event is on its way.

A stage that stands at a place of another kind may send an event backwards, and so in circles. The
number of visits is therefore bounded; a delivery that needs more visits than allowed is `none`.
-/

namespace DocTree

variable {κ ω : Type} [StageBehaviour κ ω]

namespace Stage

/-- A stage sees an event come. -/
def arrive (e : Event) (c : Chain κ ω) (s : Stage κ ω) (w : ω) : Arrival (Stage κ ω) ω :=
  match s with
  | tracker t => { stage := tracker (t.before e), world := w }
  | listener k l =>
    match l.deliver e w with
    | (.ok _, w') => { stage := listener k l, world := w' }
    | (.error err, w') => { stage := listener k l, world := w', verdict := .fail err }
  | custom k =>
    let a := StageBehaviour.arrive e c k w
    { stage := custom a.stage, world := a.world, shadowAll := a.shadowAll, verdict := a.verdict }

/-- A stage sees that an event has gone on. -/
def depart (e : Event) (c : Chain κ ω) (s : Stage κ ω) (w : ω) : Departure (Stage κ ω) ω :=
  match s with
  | tracker t => { stage := tracker (t.after e), world := w }
  | listener k l => { stage := listener k l, world := w }
  | custom k =>
    let d := StageBehaviour.depart e c k w
    { stage := custom d.stage, world := d.world, restoreAll := d.restoreAll }

end Stage

namespace Chain

/-- A chain and its world after an event. -/
structure Delivered (κ ω : Type) where
  outcome : Outcome
  chain : Chain κ ω
  world : ω

/-- Put a changed stage back at its place and level. -/
def setAt (c : Chain κ ω) (kind : StageKind) (level : Nat) (s : Stage κ ω) : Chain κ ω :=
  c.modify kind (·.setAt level s)

/-- The stage at a level of a place. -/
def at? (c : Chain κ ω) (kind : StageKind) (level : Nat) : Option (Stage κ ω) :=
  (c.place? kind).bind (·.at? level)

/-- The chain and the world when the stage at a level has seen an event go on. A stage that was
removed meanwhile still acts, from the state in which the event left it. -/
def depart (e : Event) (kind : StageKind) (level : Nat) (left : Stage κ ω)
    (d : Delivered κ ω) : Delivered κ ω :=
  let s := ((d.chain.at? kind level).getD left).depart e d.chain d.world
  let c := d.chain.setAt kind level s.stage
  { outcome := d.outcome, chain := if s.restoreAll then c.restoreAll else c, world := s.world }

/-- Bring an event to the active stage of a kind, if there is one, with a bounded number of
visits. -/
def visit (e : Event) : (visits : Nat) → Option StageKind → Chain κ ω → ω → Option (Delivered κ ω)
  | _, none, c, w => some ⟨.ok (), c, w⟩
  | 0, some _, _, _ => none
  | visits + 1, some kind, c, w =>
    match c.place? kind with
    | none => some ⟨.ok (), c, w⟩
    | some p =>
      let a := p.top.arrive e c w
      let c := c.setAt kind p.topLevel a.stage
      let c := if a.shadowAll then c.shadowAll else c
      (match a.verdict with
        | .forward => visit e visits (c.nextKind? a.stage.kind) c a.world
        | .swallow => some ⟨.ok (), c, a.world⟩
        | .fail err => some ⟨.error err, c, a.world⟩).map
          (depart e kind p.topLevel a.stage)

/-- Bring an event to the place after a kind. -/
def forwardWithin (c : Chain κ ω) (visits : Nat) (kind : StageKind) (e : Event) (w : ω) :
    Option (Delivered κ ω) := visit e visits (c.nextKind? kind) c w

/-- Bring an event to the first place. -/
def sendWithin (c : Chain κ ω) (visits : Nat) (e : Event) (w : ω) : Option (Delivered κ ω) :=
  visit e visits c.firstKind? c w

/-- As many visits as there are places suffice when every stage stands at the place of its kind. -/
def forward (c : Chain κ ω) (kind : StageKind) (e : Event) (w : ω) : Option (Delivered κ ω) :=
  c.forwardWithin c.places.length kind e w

def send (c : Chain κ ω) (e : Event) (w : ω) : Option (Delivered κ ω) :=
  c.sendWithin c.places.length e w

/-- Send events in order, up to the first failure. -/
def sendAll (c : Chain κ ω) (w : ω) : List Event → Option (Delivered κ ω)
  | [] => some ⟨.ok (), c, w⟩
  | e :: es =>
    match c.send e w with
    | none => none
    | some ⟨.ok _, c', w'⟩ => c'.sendAll w' es
    | some failed => some failed

/-- Send all events of a tree. -/
def traverse (c : Chain κ ω) (w : ω) (b : Block) : Option (Delivered κ ω) := c.sendAll w b.events

end Chain

end DocTree
