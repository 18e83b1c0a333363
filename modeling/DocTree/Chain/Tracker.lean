import DocTree.Chain.Kind
import DocTree.Chain.Surroundings

/-!
# Trackers

A tracker watches the events that pass it and answers questions of later stages. It changes before
an event goes on, after it has gone on, or both.
-/

namespace DocTree

/-! ## Runs of new lines -/

namespace NewLineRun

/-- The number of new lines up to and with an event, without another event among them. -/
def before (count : Nat) (e : Event) : Nat :=
  if e.kind = .leaf .newLine then count + 1 else 0

end NewLineRun

/-! ## Emptiness of containers -/

/-- For each open container, innermost first, whether it has had content. -/
abbrev Emptiness := List Bool

namespace Emptiness

/-- Note content of the innermost container. -/
def markContent : Emptiness → Emptiness
  | [] => []
  | _ :: open' => true :: open'

def before (s : Emptiness) (e : Event) : Emptiness :=
  match e with
  | .enter _ => false :: s.markContent
  | .exit _ => s
  | .leaf _ => s.markContent

def after (s : Emptiness) (e : Event) : Emptiness :=
  match e with
  | .exit _ => s.tail
  | _ => s

/-- The innermost container has had no content; nothing is empty outside of all containers. -/
def isCurrentEmpty (s : Emptiness) : Bool := s.head? == some false

end Emptiness

/-! ## Scopes of metadata -/

/-- The metadata of open documents and metadata blocks, innermost first. -/
abbrev Scopes := List StringMap

namespace Scopes

/-- The metadata of a container that opens a scope. -/
def ofContainer? : Container → Option StringMap
  | .document m | .metadata m => some m
  | _ => none

def before (s : Scopes) (e : Event) : Scopes :=
  match e with
  | .enter o =>
    match ofContainer? o.kind with
    | some m => m :: s
    | none => s
  | _ => s

def after (s : Scopes) (e : Event) : Scopes :=
  match e with
  | .exit o => if (ofContainer? o.kind).isSome then s.tail else s
  | _ => s

/-- All values of a key, innermost first. -/
def values (s : Scopes) (key : String) : List String := s.filterMap (·.get? key)

/-- The value of a key in the innermost scope that has one. -/
def value? (s : Scopes) (key : String) : Option String := s.findSome? (·.get? key)

end Scopes

/-! ## All trackers -/

inductive Tracker
  | newLineRun (count : Nat)
  | surroundings (s : Surroundings)
  | emptiness (s : Emptiness)
  | metadataScopes (s : Scopes)
deriving DecidableEq

namespace Tracker

def kind : Tracker → StageKind
  | newLineRun _ => .newLineRun
  | surroundings _ => .surroundings
  | emptiness _ => .emptiness
  | metadataScopes _ => .metadataScopes

def before : Tracker → Event → Tracker
  | newLineRun n, e => newLineRun (NewLineRun.before n e)
  | surroundings s, e => surroundings (s.before e)
  | emptiness s, e => emptiness (s.before e)
  | metadataScopes s, e => metadataScopes (s.before e)

def after : Tracker → Event → Tracker
  | newLineRun n, _ => newLineRun n
  | surroundings s, e => surroundings (s.after e)
  | emptiness s, e => emptiness (s.after e)
  | metadataScopes s, e => metadataScopes (s.after e)

/-- A tracker that has seen nothing, for a nested document. Runs of new lines go on across it. -/
def fresh? : Tracker → Option Tracker
  | newLineRun _ => none
  | surroundings _ => some (surroundings {})
  | emptiness _ => some (emptiness [])
  | metadataScopes _ => some (metadataScopes [])

end Tracker

end DocTree
