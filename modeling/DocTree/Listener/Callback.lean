import DocTree.Listener

/-!
# Callbacks

Every kind of event has a callback, with the data of the event as its arguments. A listener may take
over any of the callbacks. Every other callback builds the event from its arguments and hands it to
the catch-all. An event that is dispatched goes to its callback, with its data as the arguments.

Main statements: `Callback.callback_event` and `Event.event_callback`, the two ways between
callbacks and events undo each other; `Listener.dispatch_callbacks`, delivery to a listener is
dispatch to its callbacks.
-/

namespace DocTree

/-! ## Arguments -/

/-- The arguments of the two callbacks of a container, in order. -/
def ContainerTag.Args : ContainerTag → Type
  | document | metadata => StringMap
  | header => HeaderLevel × Option String × StringMap
  | list => ListStyle × StringMap
  | format => TextStyle × StringMap
  | link => Reference × Bool × StringMap
  | macroMarker => String × StringMap × Option String × Bool
  | _ => StringMap

/-- The arguments of the callback of a leaf, in order. -/
def LeafTag.Args : LeafTag → Type
  | image => Reference × Bool × StringMap
  | macroCall => String × StringMap × Option String × Bool
  | word | id => String
  | space | newLine => Unit
  | specialSymbol => Char
  | rawText => String × Dialect
  | verbatim => String × Bool × StringMap
  | horizontalLine => StringMap
  | emptyLines => UInt64

/-- What the events of a container carry when they are built from arguments. -/
def ContainerTag.opening : (t : ContainerTag) → t.Args → Opening
  | document, entries => .ofBlock (.document entries) ∅
  | metadata, entries => .ofBlock (.metadata entries) ∅
  | sectionBlock, parameters => .ofBlock .sectionBlock parameters
  | header, (level, id, parameters) => .ofBlock (.header level id) parameters
  | paragraph, parameters => .ofBlock .paragraph parameters
  | list, (style, parameters) => .ofBlock (.list style) parameters
  | listItem, parameters => .ofBlock .listItem parameters
  | definitionList, parameters => .ofBlock .definitionList parameters
  | definitionTerm, parameters => .ofBlock .definitionTerm parameters
  | definitionDescription, parameters => .ofBlock .definitionDescription parameters
  | table, parameters => .ofBlock .table parameters
  | tableRow, parameters => .ofBlock .tableRow parameters
  | tableCell, parameters => .ofBlock .tableCell parameters
  | tableHeadCell, parameters => .ofBlock .tableHeadCell parameters
  | quotation, parameters => .ofBlock .quotation parameters
  | quotationLine, parameters => .ofBlock .quotationLine parameters
  | format, (style, parameters) => .ofBlock (.format style) parameters
  | group, parameters => .ofBlock .group parameters
  | link, (reference, freeStanding, parameters) =>
    .ofBlock (.link { reference, freeStanding }) parameters
  | macroMarker, (name, parameters, content, inline) =>
    .ofBlock (.macroMarker { name, content, inline }) parameters

/-- What the event of a leaf carries when it is built from arguments. -/
def LeafTag.atom : (t : LeafTag) → t.Args → Atom
  | image, (reference, freeStanding, parameters) =>
    .ofBlock (.image { reference, freeStanding }) parameters
  | macroCall, (name, parameters, content, inline) =>
    .ofBlock (.macroCall { name, content, inline }) parameters
  | word, text => .ofBlock (.word text) ∅
  | space, _ => .ofBlock .space ∅
  | specialSymbol, symbol => .ofBlock (.specialSymbol symbol) ∅
  | newLine, _ => .ofBlock .newLine ∅
  | rawText, (content, dialect) => .ofBlock (.rawText content dialect) ∅
  | verbatim, (content, inline, parameters) => .ofBlock (.verbatim content inline) parameters
  | horizontalLine, parameters => .ofBlock .horizontalLine parameters
  | id, name => .ofBlock (.id name) ∅
  | emptyLines, count => .ofBlock (.emptyLines count) ∅

/-- The data of an event of a container, as arguments. -/
def Opening.args : (o : Opening) → o.kind.tag.Args
  | ⟨.document entries, _, _⟩ => entries
  | ⟨.metadata entries, _, _⟩ => entries
  | ⟨.sectionBlock, parameters, _⟩ => parameters
  | ⟨.header level id, parameters, _⟩ => (level, id, parameters)
  | ⟨.paragraph, parameters, _⟩ => parameters
  | ⟨.list style, parameters, _⟩ => (style, parameters)
  | ⟨.listItem, parameters, _⟩ => parameters
  | ⟨.definitionList, parameters, _⟩ => parameters
  | ⟨.definitionTerm, parameters, _⟩ => parameters
  | ⟨.definitionDescription, parameters, _⟩ => parameters
  | ⟨.table, parameters, _⟩ => parameters
  | ⟨.tableRow, parameters, _⟩ => parameters
  | ⟨.tableCell, parameters, _⟩ => parameters
  | ⟨.tableHeadCell, parameters, _⟩ => parameters
  | ⟨.quotation, parameters, _⟩ => parameters
  | ⟨.quotationLine, parameters, _⟩ => parameters
  | ⟨.format style, parameters, _⟩ => (style, parameters)
  | ⟨.group, parameters, _⟩ => parameters
  | ⟨.link target, parameters, _⟩ => (target.reference, target.freeStanding, parameters)
  | ⟨.macroMarker call, parameters, _⟩ => (call.name, parameters, call.content, call.inline)

/-- The data of the event of a leaf, as arguments. -/
def Atom.args : (a : Atom) → a.kind.tag.Args
  | ⟨.image target, parameters, _⟩ => (target.reference, target.freeStanding, parameters)
  | ⟨.macroCall call, parameters, _⟩ => (call.name, parameters, call.content, call.inline)
  | ⟨.word text, _, _⟩ => text
  | ⟨.space, _, _⟩ => ()
  | ⟨.specialSymbol symbol, _, _⟩ => symbol
  | ⟨.newLine, _, _⟩ => ()
  | ⟨.rawText content dialect, _, _⟩ => (content, dialect)
  | ⟨.verbatim content inline, parameters, _⟩ => (content, inline, parameters)
  | ⟨.horizontalLine, parameters, _⟩ => parameters
  | ⟨.id name, _, _⟩ => name
  | ⟨.emptyLines count, _, _⟩ => count

/-! ## Callbacks and events -/

/-- The arguments of the callback for a kind of event. -/
def EventKind.Args : EventKind → Type
  | enter t | exit t => t.Args
  | leaf t => t.Args

/-- A call of one of the callbacks. -/
structure Callback where
  kind : EventKind
  args : kind.Args

/-- The event that a callback hands to the catch-all where it is not taken over. -/
def Callback.event : Callback → Event
  | ⟨.enter t, args⟩ => .enter (t.opening args)
  | ⟨.exit t, args⟩ => .exit (t.opening args)
  | ⟨.leaf t, args⟩ => .leaf (t.atom args)

/-- The callback to which an event is dispatched. -/
def Event.callback : Event → Callback
  | enter o => ⟨.enter o.kind.tag, o.args⟩
  | exit o => ⟨.exit o.kind.tag, o.args⟩
  | leaf a => ⟨.leaf a.kind.tag, a.args⟩

theorem Opening.opening_args (o : Opening) : o.kind.tag.opening o.args = o := by
  obtain ⟨kind, parameters, carried⟩ := o
  cases kind with
  | document | metadata =>
    obtain rfl := carried rfl
    rfl
  | _ => rfl

theorem Atom.atom_args (a : Atom) : a.kind.tag.atom a.args = a := by
  obtain ⟨kind, parameters, carried⟩ := a
  cases kind with
  | image | macroCall | verbatim | horizontalLine => rfl
  | _ =>
    obtain rfl := carried rfl
    rfl

/-- Dispatched to its callback, an event comes to the catch-all as it was. -/
@[simp] theorem Event.event_callback (e : Event) : e.callback.event = e := by
  cases e with
  | enter o => exact congrArg Event.enter (Opening.opening_args o)
  | exit o => exact congrArg Event.exit (Opening.opening_args o)
  | leaf a => exact congrArg Event.leaf (Atom.atom_args a)

/-- The event that a callback builds is dispatched to this very callback, with the same arguments in
the same places. -/
@[simp] theorem Callback.callback_event (c : Callback) : c.event.callback = c := by
  obtain ⟨kind, args⟩ := c
  cases kind with
  | enter t => cases t <;> rfl
  | exit t => cases t <;> rfl
  | leaf t => cases t <;> rfl

theorem Callback.kind_event (c : Callback) : c.event.kind = c.kind := by
  have hkind : c.event.callback.kind = c.event.kind := by cases c.event <;> rfl
  rw [← hkind, Callback.callback_event]

/-! ## Listeners as callbacks -/

/-- A listener as its callbacks: those that it takes over, and its catch-all. -/
structure Receiver (σ : Type) where
  own : (k : EventKind) → Option (k.Args → Step σ) := fun _ => none
  general : Event → Step σ := fun _ => Step.skip

namespace Receiver

variable {σ : Type}

/-- Call a callback: the one that was taken over, or the one that goes to the catch-all. -/
def call (r : Receiver σ) (c : Callback) : Step σ :=
  match r.own c.kind with
  | some react => react c.args
  | none => r.general c.event

/-- Hand an event to its callback. -/
def dispatch (r : Receiver σ) (e : Event) : Step σ := r.call e.callback

/-- Takes over no callback, and dispatches what comes to the catch-all. A wrapper around a listener
does this, and so do a reference to one and a box with one. -/
def forward (r : Receiver σ) : Receiver σ := { general := r.dispatch }

/-- The listener to which events are handed by dispatch. -/
def listener (r : Receiver σ) : Listener σ := { general := r.dispatch }

@[simp] theorem deliver_listener (r : Receiver σ) (e : Event) :
    r.listener.deliver e = r.dispatch e := rfl

end Receiver

namespace Listener

variable {σ : Type}

/-- The callbacks of a listener: its special reactions, told the event by its data. -/
def callbacks (l : Listener σ) : Receiver σ where
  own k := (l.special k).map fun react args => react (Callback.event ⟨k, args⟩)
  general := l.general

theorem call_callbacks (l : Listener σ) (c : Callback) :
    l.callbacks.call c = l.deliver c.event := by
  rw [deliver, Callback.kind_event, Receiver.call]
  cases h : l.special c.kind with
  | none =>
    have hown : l.callbacks.own c.kind = none := congrArg (Option.map _) h
    rw [hown]
    rfl
  | some react =>
    have hown : l.callbacks.own c.kind = some fun args => react (Callback.event ⟨c.kind, args⟩) :=
      congrArg (Option.map _) h
    rw [hown]

theorem dispatch_callbacks (l : Listener σ) (e : Event) : l.callbacks.dispatch e = l.deliver e := by
  rw [Receiver.dispatch, call_callbacks, Event.event_callback]

/-- A wrapper around a listener forwards to its callbacks. -/
theorem callbacks_wrap (l : Listener σ) : l.wrap.callbacks = l.callbacks.forward := by
  have hdeliver : l.deliver = l.callbacks.dispatch := funext fun e => (dispatch_callbacks l e).symm
  rw [wrap, hdeliver]
  rfl

end Listener

end DocTree
