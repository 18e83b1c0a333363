import Mathlib.Data.Nat.Find
import Mathlib.Logic.Function.Basic
import Mathlib.Order.Fin.Basic
import Mathlib.Order.WellFounded
import DocTree.Proofs.Listener.Runs

/-!
# Independent listeners side by side

A fan-out hands one sequence of events to several listeners and stops at the first failure. What
becomes of each of them is told by its own separate run.

**Side by side** (`Listener.ensemble`). Every listener has its own part of the world, and the
fan-out works on all parts.

**Alone** (`Listener.deliverAll`). The same events for one listener and its part.

**The first failure** (`Listener.FirstFailure`). The first event on which some listener fails when
it is alone, and the first listener that fails on it. Up to there nobody stops the fan-out, so
everyone is where its own run is (`Listener.deliverAll_ensemble_of_ok`); on that event, the
listeners before are served, and those after are not.

Main result: `Listener.traverse_ensemble`.
-/

namespace DocTree

namespace Listener

/-! ## Side by side -/

variable {n : Nat} {τ : Fin n → Type}

/-- A listener on its part of a world of parts. -/
def onPart (ls : ∀ i, Listener (τ i)) (i : Fin n) : Listener (∀ i, τ i) :=
  (ls i).focus (· i) fun s w => Function.update w i s

/-- All listeners side by side, each on its own part. -/
def ensemble (ls : ∀ i, Listener (τ i)) : Listener (∀ i, τ i) :=
  fanOut ((List.finRange n).map (onPart ls))

/-- The first failure of listeners that are each alone: they all accept `k` events, and `i` is the
first of them that fails on the next one. -/
structure FirstFailure (ls : ∀ i, Listener (τ i)) (es : List Event) (w : ∀ i, τ i) (k : Nat)
    (i : Fin n) (err : ListenerError) : Prop where
  accepted : ∀ j, ((ls j).deliverAll (es.take k) (w j)).1 = .ok ()
  before : ∀ j < i, ((ls j).deliverAll (es.take (k + 1)) (w j)).1 = .ok ()
  failing : ((ls i).deliverAll (es.take (k + 1)) (w i)).1 = .error err

/-- How many events listener `j` is handed if listener `i` fails on the one after the first `k`. -/
def served (k : Nat) (i j : Fin n) : Nat := if j ≤ i then k + 1 else k

variable {ls : ∀ i, Listener (τ i)} {w : ∀ i, τ i} {es : List Event} {e : Event} {k : Nat}
  {i : Fin n} {err : ListenerError}

theorem deliver_onPart (ls : ∀ i, Listener (τ i)) (i : Fin n) (e : Event) (w : ∀ i, τ i) :
    (onPart ls i).deliver e w =
      (((ls i).deliver e (w i)).1, Function.update w i ((ls i).deliver e (w i)).2) := rfl

/-! ### One event -/

/-- Listeners that accept an event change their own parts, and nothing else. -/
theorem deliverEach_onPart {is : List (Fin n)} (his : is.Nodup)
    (h : ∀ i ∈ is, ((ls i).deliver e (w i)).1 = .ok ()) :
    deliverEach (is.map (onPart ls)) e w =
      (.ok (), fun j => if j ∈ is then ((ls j).deliver e (w j)).2 else w j) := by
  induction is generalizing w with
  | nil => rfl
  | cons i is ih =>
    obtain ⟨hi, his⟩ := List.nodup_cons.mp his
    have hok : ((onPart ls i).deliver e w).1 = .ok () := h i List.mem_cons_self
    have hother : ∀ j ≠ i, ((onPart ls i).deliver e w).2 j = w j := by
      intro j hj
      exact Function.update_of_ne hj _ _
    have hrest : ∀ j ∈ is, ((ls j).deliver e (((onPart ls i).deliver e w).2 j)).1 = .ok () := by
      intro j hj
      rw [hother j (ne_of_mem_of_not_mem hj hi)]
      exact h j (List.mem_cons_of_mem i hj)
    rw [List.map_cons, deliverEach, Step.andThen_of_ok hok, ih his hrest]
    refine congrArg (Prod.mk _) (funext fun j => ?_)
    by_cases hj : j = i
    · subst hj
      rw [if_neg hi, if_pos List.mem_cons_self]
      exact Function.update_self j _ w
    · simp only [List.mem_cons, hj, false_or, hother j hj]

theorem deliver_ensemble_of_ok (h : ∀ j, ((ls j).deliver e (w j)).1 = .ok ()) :
    (ensemble ls).deliver e w = (.ok (), fun j => ((ls j).deliver e (w j)).2) := by
  show deliverEach ((List.finRange n).map (onPart ls)) e w = _
  rw [deliverEach_onPart (List.nodup_finRange n) fun i _ => h i]
  simp only [List.mem_finRange, if_true]

/-- The listeners before a given one, and those after it. -/
theorem exists_finRange_eq (i : Fin n) :
    ∃ before after, List.finRange n = before ++ i :: after ∧ ∀ j, j ∈ before ↔ j < i := by
  obtain ⟨before, after, heq⟩ := List.append_of_mem (List.mem_finRange i)
  have hsorted := List.pairwise_lt_finRange n
  rw [heq] at hsorted
  obtain ⟨-, hafter, hbefore⟩ := List.pairwise_append.mp hsorted
  refine ⟨before, after, heq, fun j => ⟨fun hj => hbefore j hj i List.mem_cons_self, fun hj => ?_⟩⟩
  have hmem := List.mem_finRange j
  rw [heq] at hmem
  rcases List.mem_append.mp hmem with h | h
  · exact h
  · rcases List.mem_cons.mp h with rfl | h
    · exact absurd hj (lt_irrefl j)
    · exact absurd hj ((List.pairwise_cons.mp hafter).1 j h).not_gt

theorem deliver_ensemble_of_error (hbefore : ∀ j < i, ((ls j).deliver e (w j)).1 = .ok ())
    (hi : ((ls i).deliver e (w i)).1 = .error err) :
    (ensemble ls).deliver e w =
      (.error err, fun j => if j ≤ i then ((ls j).deliver e (w j)).2 else w j) := by
  obtain ⟨before, after, heq, hmem⟩ := exists_finRange_eq i
  have hnodup : before.Nodup := by
    have h := List.nodup_finRange n
    rw [heq] at h
    exact (List.nodup_append.mp h).1
  have hserved : deliverEach (before.map (onPart ls)) e w =
      (.ok (), fun j => if j ∈ before then ((ls j).deliver e (w j)).2 else w j) :=
    deliverEach_onPart hnodup fun j hj => hbefore j ((hmem j).mp hj)
  have hok : (deliverEach (before.map (onPart ls)) e w).1 = .ok () := by rw [hserved]
  -- Nobody before `i` touches its part.
  have hown : (deliverEach (before.map (onPart ls)) e w).2 i = w i := by
    rw [hserved]
    exact if_neg fun h => lt_irrefl i ((hmem i).mp h)
  have hfails : ((onPart ls i).deliver e (deliverEach (before.map (onPart ls)) e w).2).1 =
      .error err := by
    rw [deliver_onPart, hown, hi]
  show deliverEach ((List.finRange n).map (onPart ls)) e w = _
  rw [heq, List.map_append, List.map_cons, deliverEach_append, Step.andThen_of_ok hok, deliverEach,
    Step.andThen_of_error hfails, deliver_onPart, hown, hserved]
  refine congrArg (Prod.mk _) (funext fun j => ?_)
  by_cases hj : j = i
  · subst hj
    rw [if_pos le_rfl]
    exact Function.update_self j _ _
  · simp only [Function.update_of_ne hj, hmem, le_iff_lt_or_eq, hj, or_false]

/-! ### All events -/

/-- As long as everyone accepts all events, each is where its own run is. -/
theorem deliverAll_ensemble_of_ok (h : ∀ j, ((ls j).deliverAll es (w j)).1 = .ok ()) :
    (ensemble ls).deliverAll es w = (.ok (), fun j => ((ls j).deliverAll es (w j)).2) := by
  induction es generalizing w with
  | nil => rfl
  | cons e es ih =>
    have hone : ∀ j, ((ls j).deliver e (w j)).1 = .ok () := fun j =>
      (Step.andThen_ok_iff.mp (h j)).1
    have hstep := deliver_ensemble_of_ok hone
    have hok : ((ensemble ls).deliver e w).1 = .ok () := by rw [hstep]
    rw [deliverAll, Step.andThen_of_ok hok, hstep, ih fun j => (Step.andThen_ok_iff.mp (h j)).2]
    refine congrArg (Prod.mk _) (funext fun j => ?_)
    rw [deliverAll, Step.andThen_of_ok (hone j)]

theorem FirstFailure.lt_length (h : FirstFailure ls es w k i err) : k < es.length := by
  by_contra hk
  have hall := h.failing
  rw [List.take_of_length_le (Nat.le_succ_of_le (not_lt.mp hk)),
    ← List.take_of_length_le (not_lt.mp hk), h.accepted i] at hall
  cases hall

/-- The first failure ends the run of all, with its error. -/
theorem deliverAll_ensemble_of_firstFailure (h : FirstFailure ls es w k i err) :
    (ensemble ls).deliverAll es w =
      (.error err, fun j => ((ls j).deliverAll (es.take (served k i j)) (w j)).2) := by
  have hk : k < es.length := h.lt_length
  have hsucc := fun j => deliverAll_succ (h.accepted j) hk
  have haccepted := deliverAll_ensemble_of_ok h.accepted
  have hok : ((ensemble ls).deliverAll (es.take k) w).1 = .ok () := by rw [haccepted]
  -- The next event finds every listener where its own run is after `k` events.
  have hstep : (ensemble ls).deliver es[k] ((ensemble ls).deliverAll (es.take k) w).2 =
      (.error err, fun j => if j ≤ i then ((ls j).deliverAll (es.take (k + 1)) (w j)).2
        else ((ls j).deliverAll (es.take k) (w j)).2) := by
    simp only [haccepted, hsucc]
    refine deliver_ensemble_of_error (fun j hj => ?_) ?_
    · rw [← hsucc]
      exact h.before j hj
    · rw [← hsucc]
      exact h.failing
  have hfails : ((ensemble ls).deliver es[k] ((ensemble ls).deliverAll (es.take k) w).2).1 =
      .error err := by rw [hstep]
  have hsplit : es = es.take k ++ es[k] :: es.drop (k + 1) := by
    rw [List.getElem_cons_drop, List.take_append_drop]
  calc (ensemble ls).deliverAll es w
      = (ensemble ls).deliverAll (es.take k ++ es[k] :: es.drop (k + 1)) w := by rw [← hsplit]
    _ = (ensemble ls).deliver es[k] ((ensemble ls).deliverAll (es.take k) w).2 := by
        rw [deliverAll_append, Step.andThen_of_ok hok, deliverAll, Step.andThen_of_error hfails,
          hstep]
    _ = _ := by
        rw [hstep]
        refine congrArg (Prod.mk _) (funext fun j => ?_)
        by_cases hj : j ≤ i
        · rw [served, if_pos hj, if_pos hj]
        · rw [served, if_neg hj, if_neg hj]

/-! ## Main result -/

/-- Listeners that are each alone accept all events, or there is a first failure. -/
theorem exists_firstFailure (ls : ∀ i, Listener (τ i)) (es : List Event) (w : ∀ i, τ i) :
    (∀ j, ((ls j).deliverAll es (w j)).1 = .ok ()) ∨ ∃ k i err, FirstFailure ls es w k i err := by
  by_cases hall : ∀ j, ((ls j).deliverAll es (w j)).1 = .ok ()
  · exact .inl hall
  · have hsome : ∃ m, ¬ ∀ j, ((ls j).deliverAll (es.take m) (w j)).1 = .ok () :=
      ⟨es.length, by rwa [List.take_length]⟩
    obtain ⟨m, hm, hleast⟩ : ∃ m, (¬ ∀ j, ((ls j).deliverAll (es.take m) (w j)).1 = .ok ()) ∧
        ∀ l < m, ∀ j, ((ls j).deliverAll (es.take l) (w j)).1 = .ok () := by
      classical
      exact ⟨Nat.find hsome, Nat.find_spec hsome, fun l hl => not_not.mp (Nat.find_min hsome hl)⟩
    cases m with
    | zero => exact absurd (fun _ => rfl) hm
    | succ k =>
      obtain ⟨i, hi, hfirst⟩ := wellFounded_lt.has_min
        {j | ((ls j).deliverAll (es.take (k + 1)) (w j)).1 ≠ .ok ()} (not_forall.mp hm)
      cases hfails : ((ls i).deliverAll (es.take (k + 1)) (w i)).1 with
      | ok u => exact absurd hfails hi
      | error err =>
        exact .inr ⟨k, i, err, hleast k (Nat.lt_succ_self k),
          fun j hj => not_not.mp fun h => hfirst j h hj, hfails⟩

/-- Listeners fail alike whether they keep a record or not. -/
theorem FirstFailure.recorded (h : FirstFailure ls es w k i err) :
    FirstFailure (fun j => (ls j).recorded) es (fun j => ([], w j)) k i err where
  accepted j := by rw [deliverAll_recorded, h.accepted j]
  before j hj := by rw [deliverAll_recorded, h.before j hj]
  failing := by rw [deliverAll_recorded, h.failing]

/-- What a listener is handed up to the first failure is in its record. -/
theorem FirstFailure.record (h : FirstFailure ls es w k i err) (j : Fin n) :
    ((ls j).recorded.deliverAll (es.take (served k i j)) ([], w j)).2 =
      (es.take (served k i j), ((ls j).deliverAll (es.take (served k i j)) (w j)).2) := by
  have hhanded : (ls j).handed (es.take (served k i j)) (w j) = es.take (served k i j) := by
    by_cases hj : j ≤ i
    · rw [served, if_pos hj, List.take_succ_eq_append_getElem h.lt_length]
      exact handed_concat (h.accepted j) _
    · rw [served, if_neg hj]
      exact handed_of_ok (h.accepted j)
  rw [deliverAll_recorded, hhanded, List.nil_append]

/-- Independent listeners side by side traverse a tree as each of them does alone, if all of these
separate runs succeed. If not, let event `k` be the first on which one of them fails, and `i` the
first listener that fails on it. Then the traversal fails with the error of `i`; the listeners up to
`i` end where they are alone after event `k`, and the listeners after `i` where they are before it.
The records tell that nobody is handed any other event. -/
theorem traverse_ensemble (ls : ∀ i, Listener (τ i)) (b : Block) (w : ∀ i, τ i) :
    ((∀ j, ((ls j).traverse b (w j)).1 = .ok ()) ∧
        (ensemble ls).traverse b w = (.ok (), fun j => ((ls j).traverse b (w j)).2) ∧
        (ensemble fun j => (ls j).recorded).traverse b (fun j => ([], w j)) =
          (.ok (), fun j => (b.events, ((ls j).traverse b (w j)).2))) ∨
      ∃ k i err, k < b.events.length ∧ FirstFailure ls b.events w k i err ∧
        (ensemble ls).traverse b w =
          (.error err, fun j => ((ls j).deliverAll (b.events.take (served k i j)) (w j)).2) ∧
        (ensemble fun j => (ls j).recorded).traverse b (fun j => ([], w j)) =
          (.error err, fun j => (b.events.take (served k i j),
            ((ls j).deliverAll (b.events.take (served k i j)) (w j)).2)) := by
  rcases exists_firstFailure ls b.events w with hall | ⟨k, i, err, h⟩
  · refine .inl ⟨hall, deliverAll_ensemble_of_ok hall, ?_⟩
    have hrecorded : ∀ j, ((ls j).recorded.deliverAll b.events ([], w j)).1 = .ok () := by
      intro j
      rw [deliverAll_recorded, hall j]
    rw [traverse, deliverAll_ensemble_of_ok hrecorded]
    refine congrArg (Prod.mk _) (funext fun j => ?_)
    rw [deliverAll_recorded, handed_of_ok (hall j), List.nil_append, traverse]
  · refine .inr ⟨k, i, err, h.lt_length, h, deliverAll_ensemble_of_firstFailure h, ?_⟩
    rw [traverse, deliverAll_ensemble_of_firstFailure h.recorded]
    exact congrArg (Prod.mk _) (funext fun j => h.record j)

end Listener

end DocTree
