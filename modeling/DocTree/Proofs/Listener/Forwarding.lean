import Mathlib.Logic.Function.Iterate
import DocTree.Listener.Callback
import DocTree.Proofs.Listener.Runs

/-!
# Forwarders

A forwarder around a listener, or several of them around each other, make no difference to it.

**Forwarded** (`Receiver.forward`). The callbacks of a forwarder build the event from their
arguments and dispatch it to the listener inside. As this comes to the same callback with the same
arguments (`Callback.callback_event`), a callback of the forwarder is one of the listener.

**Watched** (`Receiver.traced`). The same listener with a log of what runs of it: which of the
callbacks that it takes over, with which arguments, and its catch-all, with which event.

Main result: `Receiver.forward_transparent`.
-/

namespace DocTree

/-- What runs of a listener: a callback that it takes over, or its catch-all. -/
inductive Reaction
  | own (c : Callback)
  | general (e : Event)

namespace Receiver

variable {σ : Type}

/-- Call callbacks one after the other, whatever becomes of each. -/
def callEach (r : Receiver σ) : List Callback → σ → List Outcome × σ
  | [], s => ([], s)
  | c :: cs, s =>
    let d := r.callEach cs (r.call c s).2
    ((r.call c s).1 :: d.1, d.2)

/-! ## Forwarding -/

theorem call_forward (r : Receiver σ) (c : Callback) : r.forward.call c = r.call c := by
  show r.dispatch c.event = r.call c
  rw [dispatch, Callback.callback_event]

theorem call_forward_iterate (r : Receiver σ) (n : Nat) : (forward^[n] r).call = r.call := by
  induction n with
  | zero => rfl
  | succ n ih =>
    funext c
    rw [Function.iterate_succ_apply', call_forward, ih]

/-- Wrappers around a listener are forwarders to its callbacks. -/
theorem callbacks_wrap_iterate (l : Listener σ) (n : Nat) :
    (Listener.wrap^[n] l).callbacks = forward^[n] l.callbacks := by
  induction n with
  | zero => rfl
  | succ n ih =>
    rw [Function.iterate_succ_apply', Listener.callbacks_wrap, ih, Function.iterate_succ_apply']

/-- What is delivered through callbacks depends on nothing but these. -/
theorem callEach_congr {r q : Receiver σ} (h : r.call = q.call) : r.callEach = q.callEach := by
  funext cs
  induction cs with
  | nil => rfl
  | cons c cs ih =>
    funext s
    rw [callEach, callEach, ih, h]

theorem listener_congr {r q : Receiver σ} (h : r.call = q.call) : r.listener = q.listener := by
  have hdispatch : r.dispatch = q.dispatch := by
    funext e
    rw [dispatch, dispatch, h]
  rw [listener, listener, hdispatch]

/-! ## Tracing -/

/-- Takes over the same callbacks, and logs what runs. -/
def traced (r : Receiver σ) : Receiver (List Reaction × σ) where
  own k := (r.own k).map fun react args s =>
    ((react args s.2).1, (s.1 ++ [.own ⟨k, args⟩], (react args s.2).2))
  general e s := ((r.general e s.2).1, (s.1 ++ [.general e], (r.general e s.2).2))

/-- What runs when a callback is called. -/
def reaction (r : Receiver σ) (c : Callback) : Reaction :=
  if (r.own c.kind).isSome then .own c else .general c.event

theorem call_traced (r : Receiver σ) (c : Callback) (s : List Reaction × σ) :
    r.traced.call c s = ((r.call c s.2).1, (s.1 ++ [r.reaction c], (r.call c s.2).2)) := by
  rw [call, call, reaction]
  cases h : r.own c.kind with
  | none =>
    have htraced : r.traced.own c.kind = none := congrArg (Option.map _) h
    rw [htraced]
    rfl
  | some react =>
    have htraced : r.traced.own c.kind = some fun args s =>
        ((react args s.2).1, (s.1 ++ [.own ⟨c.kind, args⟩], (react args s.2).2)) :=
      congrArg (Option.map _) h
    rw [htraced]
    rfl

/-- The log has what runs at each callback, in order. -/
theorem callEach_traced (r : Receiver σ) (cs : List Callback) (s : List Reaction × σ) :
    r.traced.callEach cs s =
      ((r.callEach cs s.2).1, (s.1 ++ cs.map r.reaction, (r.callEach cs s.2).2)) := by
  induction cs generalizing s with
  | nil => rw [callEach, callEach, List.map_nil, List.append_nil]
  | cons c cs ih =>
    have hlog : s.1 ++ [r.reaction c] ++ cs.map r.reaction = s.1 ++ (c :: cs).map r.reaction :=
      List.append_assoc ..
    rw [callEach, call_traced, ih, ← hlog]
    rfl

/-- Of a run over events, the log has what runs at each event that is handed over. -/
theorem deliverAll_traced (r : Receiver σ) (es : List Event) (s : List Reaction × σ) :
    r.traced.listener.deliverAll es s =
      ((r.listener.deliverAll es s.2).1,
        (s.1 ++ (r.listener.handed es s.2).map fun e => r.reaction e.callback,
          (r.listener.deliverAll es s.2).2)) := by
  apply Listener.deliverAll_log
  intro e s
  exact call_traced r e.callback s

/-! ## Main result -/

/-- Any number of forwarders around a listener make no difference, for callbacks that are called
one after the other and for the traversal of a tree: every delivery has the same result, the
listener ends in the same state, and of the listener the same runs with the same data, in the same
order. At a callback, that is the callback itself if it is taken over, and else the catch-all with
the event of the callback. -/
theorem forward_transparent (r : Receiver σ) (n : Nat) (cs : List Callback) (b : Block) (s : σ) :
    (forward^[n] r).callEach cs s = r.callEach cs s ∧
      (forward^[n] r).listener.traverse b s = r.listener.traverse b s ∧
      (forward^[n] r.traced).callEach cs ([], s) =
        ((r.callEach cs s).1, (cs.map r.reaction, (r.callEach cs s).2)) ∧
      (forward^[n] r.traced).listener.traverse b ([], s) =
        ((r.listener.traverse b s).1,
          ((r.listener.recorded.traverse b ([], s)).2.1.map fun e => r.reaction e.callback,
            (r.listener.traverse b s).2)) := by
  refine ⟨?_, ?_, ?_, ?_⟩
  · rw [callEach_congr (call_forward_iterate r n)]
  · rw [listener_congr (call_forward_iterate r n)]
  · rw [callEach_congr (call_forward_iterate r.traced n), callEach_traced]
    rfl
  · rw [listener_congr (call_forward_iterate r.traced n)]
    rw [Listener.traverse, deliverAll_traced, Listener.traverse, Listener.traverse,
      Listener.deliverAll_recorded, List.nil_append, List.nil_append]

end Receiver

end DocTree
