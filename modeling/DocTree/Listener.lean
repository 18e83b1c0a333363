import DocTree.Event

/-!
# Listeners

A listener receives events one after another and keeps a state. It may handle some kinds of event in
a way of their own; every other kind goes to its general reaction. A reaction may fail; the state
that it left stays.

Main statements: `deliver_wrap`, a wrapper changes nothing; `deliver_fanOut_cons`, a fan-out asks
its listeners in order and stops at the first failure.
-/

namespace DocTree

/-- Why a listener refused an event. -/
inductive ListenerError
  /-- Writing to the output failed, with the message of the output. -/
  | output (message : String)
  /-- Formatting failed. -/
  | format
  /-- A reason of the listener's own. -/
  | custom (message : String)
deriving DecidableEq, Repr, Inhabited

def ListenerError.message : ListenerError → String
  | .output m => "Output error: " ++ m
  | .format => "Format error"
  | .custom m => m

/-- What became of an event. -/
abbrev Outcome := Except ListenerError Unit

/-- A step over a state that may fail and keeps the state that it left in either case. -/
abbrev Step (σ : Type) := σ → Outcome × σ

namespace Step

variable {σ : Type}

/-- Do nothing. -/
def skip : Step σ := fun s => (.ok (), s)

def update (f : σ → σ) : Step σ := fun s => (.ok (), f s)

def fail (e : ListenerError) : Step σ := fun s => (.error e, s)

/-- The second step runs only if the first one succeeded. -/
def andThen (a b : Step σ) : Step σ := fun s =>
  match a s with
  | (.ok _, s') => b s'
  | (.error e, s') => (.error e, s')

@[simp] theorem skip_andThen (a : Step σ) : skip.andThen a = a := rfl

@[simp] theorem fail_andThen (e : ListenerError) (a : Step σ) : (fail e).andThen a = fail e := rfl

@[simp] theorem andThen_skip (a : Step σ) : a.andThen skip = a := by
  funext s
  unfold andThen
  rcases h : a s with ⟨r, s'⟩
  cases r <;> rfl

theorem andThen_assoc (a b c : Step σ) : (a.andThen b).andThen c = a.andThen (b.andThen c) := by
  funext s
  unfold andThen
  rcases h : a s with ⟨r, s'⟩
  cases r <;> rfl

end Step

/-- A receiver of events with a state of type `σ`. -/
structure Listener (σ : Type) where
  /-- Reactions to single kinds of event. -/
  special : EventKind → Option (Event → Step σ) := fun _ => none
  /-- The reaction to every other kind. -/
  general : Event → Step σ := fun _ => Step.skip

namespace Listener

variable {σ : Type}

/-! ## Delivery -/

/-- Hand an event to the reaction that is meant for its kind. -/
def deliver (l : Listener σ) (e : Event) : Step σ :=
  match l.special e.kind with
  | some react => react e
  | none => l.general e

/-- Hand over events in order, up to the first failure. -/
def deliverAll (l : Listener σ) : List Event → Step σ
  | [] => Step.skip
  | e :: es => (l.deliver e).andThen (l.deliverAll es)

/-- Hand over all events of a tree. -/
def traverse (l : Listener σ) (b : Block) : Step σ := l.deliverAll b.events

/-! ## Combinations -/

/-- Accepts everything. -/
def silent : Listener σ := {}

/-- Hands every event on to another listener. -/
def wrap (l : Listener σ) : Listener σ := { general := l.deliver }

@[simp] theorem deliver_wrap (l : Listener σ) (e : Event) : l.wrap.deliver e = l.deliver e := rfl

/-- Hand an event to each listener in order, up to the first failure. -/
def deliverEach : List (Listener σ) → Event → Step σ
  | [], _ => Step.skip
  | l :: ls, e => (l.deliver e).andThen (deliverEach ls e)

/-- Hands every event to each listener of a list. -/
def fanOut (ls : List (Listener σ)) : Listener σ := { general := deliverEach ls }

theorem deliver_fanOut_cons (l : Listener σ) (ls : List (Listener σ)) (e : Event) :
    (fanOut (l :: ls)).deliver e = (l.deliver e).andThen ((fanOut ls).deliver e) := rfl

/-- Changes the words before it hands them on. -/
def mapWords (f : String → String) (l : Listener σ) : Listener σ where
  special
    | .leaf .word => some fun e =>
      match e.word? with
      | some text => l.deliver (.leaf (.ofBlock (.word (f text)) ∅))
      | none => l.deliver e
    | _ => none
  general := l.deliver

/-- A listener on one part of a larger state. -/
def focus {τ : Type} (get : τ → σ) (set : σ → τ → τ) (l : Listener σ) : Listener τ where
  general e t :=
    let r := l.deliver e (get t)
    (r.1, set r.2 t)

end Listener

end DocTree
