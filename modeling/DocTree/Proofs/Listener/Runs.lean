import DocTree.Listener

/-!
# Runs of a listener

What a listener does with several events: up to a failure it goes on where it has ended, and after a
failure nothing more is handed over. Of a tree, the events are handed over one by one, down the tree
and up again, and a failure ends this at every level (`Listener.traverse_container`).

What is handed over (`Listener.handed`) is told by a listener that keeps a record of it
(`Listener.recorded`).
-/

namespace DocTree

namespace Step

variable {σ : Type} {a b : Step σ} {s : σ}

theorem andThen_of_ok (h : (a s).1 = .ok ()) : a.andThen b s = b (a s).2 := by
  rw [andThen]
  rcases hs : a s with ⟨r, s'⟩
  rw [hs] at h
  obtain rfl : r = .ok () := h
  rfl

theorem andThen_of_error {err : ListenerError} (h : (a s).1 = .error err) :
    a.andThen b s = (.error err, (a s).2) := by
  rw [andThen]
  rcases hs : a s with ⟨r, s'⟩
  rw [hs] at h
  obtain rfl : r = .error err := h
  rfl

/-- Two steps succeed if the first does, and the second does where the first has ended. -/
theorem andThen_ok_iff :
    (a.andThen b s).1 = .ok () ↔ (a s).1 = .ok () ∧ (b (a s).2).1 = .ok () := by
  cases ha : (a s).1 with
  | ok u => rw [andThen_of_ok ha, and_iff_right rfl]
  | error err =>
    rw [andThen_of_error ha]
    exact ⟨nofun, fun h => nomatch h.1⟩

end Step

namespace Listener

variable {σ : Type}

/-! ## Parts of a run -/

theorem deliverAll_append (l : Listener σ) (es fs : List Event) :
    l.deliverAll (es ++ fs) = (l.deliverAll es).andThen (l.deliverAll fs) := by
  induction es with
  | nil => rfl
  | cons e es ih => rw [List.cons_append, deliverAll, ih, ← Step.andThen_assoc, ← deliverAll]

theorem deliverAll_singleton (l : Listener σ) (e : Event) : l.deliverAll [e] = l.deliver e :=
  Step.andThen_skip _

/-- Where a listener ends that is handed one event after those that it has accepted. -/
theorem deliverAll_succ {l : Listener σ} {es : List Event} {s : σ} {k : Nat}
    (h : (l.deliverAll (es.take k) s).1 = .ok ()) (hk : k < es.length) :
    l.deliverAll (es.take (k + 1)) s = l.deliver es[k] (l.deliverAll (es.take k) s).2 := by
  rw [List.take_succ_eq_append_getElem hk, deliverAll_append, Step.andThen_of_ok h,
    deliverAll_singleton]

theorem deliverEach_append (ls ms : List (Listener σ)) (e : Event) :
    deliverEach (ls ++ ms) e = (deliverEach ls e).andThen (deliverEach ms e) := by
  induction ls with
  | nil => rfl
  | cons l ls ih => rw [List.cons_append, deliverEach, ih, ← Step.andThen_assoc, ← deliverEach]

/-- Hand over the events of trees in order, up to the first failure. -/
def traverseEach (l : Listener σ) : List Block → Step σ
  | [] => Step.skip
  | b :: bs => (l.traverse b).andThen (l.traverseEach bs)

theorem deliverAll_eventsList (l : Listener σ) (bs : List Block) :
    l.deliverAll (Block.eventsList bs) = l.traverseEach bs := by
  induction bs with
  | nil => rfl
  | cons b bs ih => rw [Block.eventsList, deliverAll_append, ih, traverseEach, traverse]

/-- A container is entered, its children are traversed, and it is left; a failure on the way ends
the traversal at every level. -/
theorem traverse_container (l : Listener σ) (c : Container) (bs : List Block) (ps : StringMap) :
    l.traverse ⟨.container c, bs, ps⟩ =
      (l.deliver (.enter (.ofBlock c ps))).andThen
        ((l.traverseEach bs).andThen (l.deliver (.exit (.ofBlock c ps)))) := by
  rw [traverse, Block.events, List.cons_append, deliverAll, deliverAll_append,
    deliverAll_eventsList, deliverAll_singleton]

theorem traverse_leaf (l : Listener σ) (a : Leaf) (bs : List Block) (ps : StringMap) :
    l.traverse ⟨.leaf a, bs, ps⟩ = l.deliver (.leaf (.ofBlock a ps)) := by
  rw [traverse, Block.events, deliverAll_singleton]

/-! ## What is handed over -/

/-- The events that are handed over: up to the first failure. -/
def handed (l : Listener σ) : List Event → σ → List Event
  | [], _ => []
  | e :: es, s =>
    match l.deliver e s with
    | (.ok _, s') => e :: l.handed es s'
    | (.error _, _) => [e]

theorem handed_cons_of_ok {l : Listener σ} {e : Event} {s : σ} (h : (l.deliver e s).1 = .ok ())
    (es : List Event) : l.handed (e :: es) s = e :: l.handed es (l.deliver e s).2 := by
  rw [handed]
  rcases hs : l.deliver e s with ⟨r, s'⟩
  rw [hs] at h
  obtain rfl : r = .ok () := h
  rfl

theorem handed_cons_of_error {l : Listener σ} {e : Event} {s : σ} {err : ListenerError}
    (h : (l.deliver e s).1 = .error err) (es : List Event) : l.handed (e :: es) s = [e] := by
  rw [handed]
  rcases hs : l.deliver e s with ⟨r, s'⟩
  rw [hs] at h
  obtain rfl : r = .error err := h
  rfl

/-- Events that are all accepted are handed over, and so is what may come after them. -/
theorem handed_append_of_ok {l : Listener σ} {es : List Event} {s : σ}
    (h : (l.deliverAll es s).1 = .ok ()) (fs : List Event) :
    l.handed (es ++ fs) s = es ++ l.handed fs (l.deliverAll es s).2 := by
  induction es generalizing s with
  | nil => rfl
  | cons e es ih =>
    obtain ⟨he, hes⟩ := Step.andThen_ok_iff.mp h
    rw [List.cons_append, handed_cons_of_ok he, ih hes, deliverAll, Step.andThen_of_ok he,
      List.cons_append]

theorem handed_of_ok {l : Listener σ} {es : List Event} {s : σ}
    (h : (l.deliverAll es s).1 = .ok ()) : l.handed es s = es := by
  have hall := handed_append_of_ok h []
  rwa [List.append_nil, handed, List.append_nil] at hall

/-- The event after what was accepted is handed over, whatever becomes of it. -/
theorem handed_concat {l : Listener σ} {es : List Event} {s : σ}
    (h : (l.deliverAll es s).1 = .ok ()) (e : Event) : l.handed (es ++ [e]) s = es ++ [e] := by
  rw [handed_append_of_ok h]
  cases he : (l.deliver e (l.deliverAll es s).2).1 with
  | ok u => rw [handed_cons_of_ok he, handed]
  | error err => rw [handed_cons_of_error he]

/-- A run that fails does so on the first event that is refused, the last one handed over. -/
theorem exists_refused {l : Listener σ} {es : List Event} {s : σ} {err : ListenerError}
    (h : (l.deliverAll es s).1 = .error err) :
    ∃ k < es.length, (l.deliverAll (es.take k) s).1 = .ok () ∧ l.handed es s = es.take (k + 1) ∧
      l.deliverAll es s = l.deliverAll (es.take (k + 1)) s := by
  induction es generalizing s with
  | nil => cases h
  | cons e es ih =>
    cases he : (l.deliver e s).1 with
    | ok u =>
      rw [deliverAll, Step.andThen_of_ok he] at h
      obtain ⟨k, hk, haccepted, hhanded, hend⟩ := ih h
      refine ⟨k + 1, Nat.succ_lt_succ hk, ?_, ?_, ?_⟩
      · rw [List.take_succ_cons, deliverAll, Step.andThen_of_ok he, haccepted]
      · rw [handed_cons_of_ok he, hhanded, List.take_succ_cons]
      · rw [List.take_succ_cons, deliverAll, deliverAll, Step.andThen_of_ok he,
          Step.andThen_of_ok he, hend]
    | error err' =>
      refine ⟨0, Nat.succ_pos es.length, rfl, handed_cons_of_error he es, ?_⟩
      rw [List.take_succ_cons, List.take_zero, deliverAll_singleton, deliverAll,
        Step.andThen_of_error he, ← he]

/-! ## Records -/

/-- A listener that does the same as another one and logs each event that it is handed has a log of
all that were handed over. -/
theorem deliverAll_log {α : Type} {l : Listener σ} {m : Listener (List α × σ)} {f : Event → α}
    (hlog : ∀ e s, m.deliver e s =
      ((l.deliver e s.2).1, (s.1 ++ [f e], (l.deliver e s.2).2)))
    (es : List Event) (s : List α × σ) :
    m.deliverAll es s =
      ((l.deliverAll es s.2).1, (s.1 ++ (l.handed es s.2).map f, (l.deliverAll es s.2).2)) := by
  induction es generalizing s with
  | nil => exact congrArg (fun log => (Except.ok (), (log, s.2))) (List.append_nil s.1).symm
  | cons e es ih =>
    cases h : (l.deliver e s.2).1 with
    | ok u =>
      have hm : (m.deliver e s).1 = .ok () := by rw [hlog, h]
      rw [deliverAll, deliverAll, Step.andThen_of_ok hm, Step.andThen_of_ok h, hlog, ih,
        handed_cons_of_ok h, List.map_cons, List.append_assoc, List.singleton_append]
    | error err =>
      have hm : (m.deliver e s).1 = .error err := by rw [hlog, h]
      rw [deliverAll, deliverAll, Step.andThen_of_error hm, Step.andThen_of_error h, hlog,
        handed_cons_of_error h, List.map_singleton]

/-- Keeps a record of what it is handed. -/
def recorded (l : Listener σ) : Listener (List Event × σ) where
  general e s := ((l.deliver e s.2).1, (s.1 ++ [e], (l.deliver e s.2).2))

/-- The record apart, a listener that keeps one does the same. -/
theorem deliverAll_recorded (l : Listener σ) (es : List Event) (s : List Event × σ) :
    l.recorded.deliverAll es s =
      ((l.deliverAll es s.2).1, (s.1 ++ l.handed es s.2, (l.deliverAll es s.2).2)) := by
  rw [deliverAll_log (l := l) (f := id) fun _ _ => rfl, List.map_id]

end Listener

end DocTree
