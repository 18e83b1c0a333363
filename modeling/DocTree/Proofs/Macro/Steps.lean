import DocTree.Macro.Expansion
import DocTree.Proofs.Block.Positions
import Mathlib.Data.List.Perm.Basic
import Mathlib.Data.Prod.Lex

/-!
# The steps of an expansion

The call that is next in turn is the least one of those that wait (`PendingCall.takeNext?_spec`).

What a step can do with it is said once. A waiting call is passed over, refused, or executed, and an
execution fails or puts a marker in the place of the call (`Comes`, `comes_attempt`). Nothing here
asks whether the block at the position is the one that was found there when the call was put in
line, so the cases hold for any tree, also one in which calls have blocks below them.

What each step keeps, a run keeps (`Expansion.run_induction`). A run makes no more steps than it has
room for (`Expansion.run_le`), and one that is neither out of room nor failed has no call left that
waits (`Expansion.pending_run_eq_nil`).
-/

namespace DocTree

/-! ## Turns -/

namespace PendingCall

/-- Calls that wait go by priority, then by position. -/
def key (a : PendingCall) : ℕ ×ₗ List ℕ := toLex (a.priority, a.path)

theorem notAfter_iff (a b : PendingCall) : a.notAfter b = true ↔ a.key ≤ b.key := by
  have hlex : b.path.lex a.path = false ↔ a.path ≤ b.path := by
    rw [← Bool.not_eq_true, List.lex_eq_true_iff_lt]
    exact not_lt
  rw [key, key, Prod.Lex.toLex_le_toLex, notAfter, Bool.or_eq_true, Bool.and_eq_true,
    decide_eq_true_iff, beq_iff_eq, Bool.not_eq_true', hlex]

theorem first?_eq_none_iff : ∀ calls : List PendingCall, first? calls = none ↔ calls = []
  | [] => by simp [first?]
  | a :: as => by
    rw [first?]
    cases first? as with
    | none => simp
    | some f =>
      dsimp only
      split <;> simp

/-- The first call stands at its index, and no other one is due before it. -/
theorem first?_spec {calls : List PendingCall} {i : Nat} {a : PendingCall}
    (h : first? calls = some (i, a)) : calls[i]? = some a ∧ ∀ b ∈ calls, a.key ≤ b.key := by
  induction calls generalizing i a with
  | nil => cases h
  | cons d ds ih =>
    rw [first?] at h
    cases hds : first? ds with
    | none =>
      rw [hds] at h
      obtain ⟨rfl, rfl⟩ := Prod.mk.inj (Option.some.inj h)
      obtain rfl := (first?_eq_none_iff ds).mp hds
      exact ⟨rfl, fun b hb => by rw [List.mem_singleton.mp hb]⟩
    | some f =>
      obtain ⟨j, e⟩ := f
      obtain ⟨hj, hle⟩ := ih hds
      rw [hds] at h
      dsimp only at h
      split at h
      case isTrue hde =>
        obtain ⟨rfl, rfl⟩ := Prod.mk.inj (Option.some.inj h)
        have hde := (notAfter_iff d e).mp hde
        exact ⟨rfl, List.forall_mem_cons.mpr ⟨le_rfl, fun b hb => hde.trans (hle b hb)⟩⟩
      case isFalse hde =>
        obtain ⟨rfl, rfl⟩ := Prod.mk.inj (Option.some.inj h)
        have hed := le_of_not_ge fun hle => hde ((notAfter_iff d e).mpr hle)
        exact ⟨hj, List.forall_mem_cons.mpr ⟨hed, hle⟩⟩

/-- A call and the list without it are the list, in another order. -/
theorem cons_dropAt_perm {calls : List PendingCall} {i : Nat} {a : PendingCall}
    (h : calls[i]? = some a) : (a :: dropAt calls i).Perm calls := by
  rcases List.eq_nil_or_concat' calls with rfl | ⟨ds, last, rfl⟩
  · cases h
  rw [dropAt, List.getLast?_concat]
  dsimp only
  rcases Nat.lt_or_ge i ds.length with hi | hi
  · -- The last call moves into the place of the one taken.
    rw [List.getElem?_append_left hi] at h
    obtain ⟨-, rfl⟩ := List.getElem?_eq_some_iff.mp h
    rw [List.set_append_left i last hi, List.dropLast_concat]
    calc
      List.Perm (ds[i] :: ds.set i last) (ds[i] :: last :: ds.eraseIdx i) :=
        (List.set_perm_cons_eraseIdx hi last).cons _
      List.Perm _ (last :: ds[i] :: ds.eraseIdx i) := .swap ..
      List.Perm _ (last :: ds) := (List.getElem_cons_eraseIdx_perm hi).cons _
      List.Perm _ (ds ++ [last]) := (List.perm_append_singleton last ds).symm
  · rw [List.getElem?_append_right hi] at h
    obtain rfl := List.mem_singleton.mp (List.mem_of_getElem? h)
    have hset : [a].set (i - ds.length) a = [a] := by cases i - ds.length <;> rfl
    rw [List.set_append_right i _ hi, hset, List.dropLast_concat]
    exact (List.perm_append_singleton a ds).symm

theorem takeNext?_eq_none_iff (calls : List PendingCall) :
    takeNext? calls = none ↔ calls = [] := by
  rw [takeNext?, Option.map_eq_none_iff, first?_eq_none_iff]

theorem takeNext?_spec {calls others : List PendingCall} {a : PendingCall}
    (h : takeNext? calls = some (a, others)) :
    (a :: others).Perm calls ∧ ∀ b ∈ calls, a.key ≤ b.key := by
  obtain ⟨⟨i, d⟩, hf, he⟩ := Option.map_eq_some_iff.mp h
  obtain ⟨rfl, rfl⟩ := Prod.mk.inj he
  obtain ⟨hi, hle⟩ := first?_spec hf
  exact ⟨cons_dropAt_perm hi, hle⟩

end PendingCall

variable {t : MacroTable} {ctx : Context} {root : Block} {next : PendingCall}

/-! ## One attempt -/

/-- A call stands at the position of the waiting one, and a macro has the name under which the
waiting one was found. -/
structure Found (t : MacroTable) (root : Block) (next : PendingCall) (b : Block) (call : Call)
    (m : Macro) : Prop where
  block : root.get? next.path = some b
  call : b.call? = some call
  callee : t.get? next.name = some m

/-- What the macro is given. -/
def PendingCall.invocation (next : PendingCall) (ctx : Context) (root b : Block) (call : Call) :
    Invocation where
  parameters := b.parameters
  content := call.content
  inline := call.inline
  root := root
  path := next.path
  context := ctx

/-- What may come of a waiting call. -/
inductive Comes (t : MacroTable) (ctx : Context) (root : Block) (next : PendingCall) :
    Attempt → Prop
  | passedOver (h : ∀ b call m, ¬ Found t root next b call m) :
      Comes t ctx root next { result := .ok root }
  | refused {b : Block} {call : Call} {m : Macro} (h : Found t root next b call m)
      (hinline : (call.inline && !m.inlineSupported) = true) :
      Comes t ctx root next { result := .error (.expansion next.name .inlineNotSupported) }
  | failed {b : Block} {call : Call} {m : Macro} {e : MacroError} (h : Found t root next b call m)
      (hinline : (call.inline && !m.inlineSupported) = false)
      (hrun : m.run (next.invocation ctx root b call) = .error e) :
      Comes t ctx root next
        { execution := some { name := next.name, invocation := next.invocation ctx root b call }
          result := .error (.expansion next.name e) }
  | replaced {b : Block} {call : Call} {m : Macro} {blocks : List Block}
      (h : Found t root next b call m)
      (hinline : (call.inline && !m.inlineSupported) = false)
      (hrun : m.run (next.invocation ctx root b call) = .ok blocks) :
      Comes t ctx root next
        { execution := some { name := next.name, invocation := next.invocation ctx root b call }
          result := .ok (root.setAt next.path
            (.macroMarker { call with name := next.name } b.parameters blocks)) }

theorem comes_attempt (t : MacroTable) (ctx : Context) (root : Block) (next : PendingCall) :
    Comes t ctx root next (t.attempt ctx root next) := by
  rw [MacroTable.attempt]
  cases hb : root.get? next.path with
  | none => exact .passedOver fun b call m h => nomatch hb.symm.trans h.block
  | some b =>
    dsimp only
    cases hcall : b.call? with
    | none =>
      refine .passedOver fun b' call m h => ?_
      obtain rfl := Option.some.inj (hb.symm.trans h.block)
      exact nomatch hcall.symm.trans h.call
    | some call =>
      cases hm : t.get? next.name with
      | none => exact .passedOver fun b call m h => nomatch hm.symm.trans h.callee
      | some m =>
        have h : Found t root next b call m := ⟨hb, hcall, hm⟩
        dsimp only
        cases hinline : call.inline && !m.inlineSupported with
        | true => exact .refused h hinline
        | false =>
          simp only [Bool.false_eq_true, if_false]
          cases hrun : m.run (next.invocation ctx root b call) with
          | error e =>
            have hrun' := hrun
            rw [PendingCall.invocation] at hrun'
            simp only [hrun']
            exact .failed h hinline hrun
          | ok blocks =>
            have hrun' := hrun
            rw [PendingCall.invocation] at hrun'
            simp only [hrun', Block.edit?_const _ hb, Option.getD_some]
            exact .replaced h hinline hrun

/-- An attempt that does not fail leaves the tree as it was, or puts a marker in the place of a
block. -/
theorem tree_of_attempt {tree : Block} (h : (t.attempt ctx root next).result = .ok tree) :
    tree = root ∨
      ∃ b marker, root.get? next.path = some b ∧ tree = root.setAt next.path marker := by
  have hcomes := comes_attempt t ctx root next
  generalize t.attempt ctx root next = a at h hcomes
  cases hcomes with
  | passedOver => exact .inl (Except.ok.inj h).symm
  | refused => cases h
  | failed => cases h
  | replaced hfound => exact .inr ⟨_, _, hfound.block, (Except.ok.inj h).symm⟩

/-- The macro that runs is the one of the name that waits. -/
theorem name_of_execution {e : Execution} (h : (t.attempt ctx root next).execution = some e) :
    e.name = next.name := by
  have hcomes := comes_attempt t ctx root next
  generalize t.attempt ctx root next = a at h hcomes
  cases hcomes with
  | passedOver => cases h
  | refused => cases h
  | failed | replaced => rw [← Option.some.inj h]

/-! ## One step -/

namespace Expansion

variable {x : Expansion} {others : List PendingCall}

theorem step_of_error {e : TransformError} (h : (t.attempt ctx x.tree next).result = .error e) :
    x.step t ctx next others =
      { x with
        failure := some e, pending := others
        executions := x.executions ++ (t.attempt ctx x.tree next).execution.toList } := by
  rw [step, h]

theorem step_of_ok {tree : Block} (h : (t.attempt ctx x.tree next).result = .ok tree) :
    x.step t ctx next others =
      { tree, pending := others ++ tree.pendingCalls t ctx next.path, steps := x.steps + 1
        executions := x.executions ++ (t.attempt ctx x.tree next).execution.toList } := by
  rw [step, h]

theorem executions_step : (x.step t ctx next others).executions =
    x.executions ++ (t.attempt ctx x.tree next).execution.toList := by
  cases h : (t.attempt ctx x.tree next).result with
  | error e => rw [step_of_error h]
  | ok tree => rw [step_of_ok h]

/-- A step without a failure counts, and one with a failure does not. -/
theorem steps_step : (x.step t ctx next others).steps =
    if (x.step t ctx next others).failure.isSome then x.steps else x.steps + 1 := by
  cases h : (t.attempt ctx x.tree next).result with
  | error e => rw [step_of_error h, Option.isSome_some, if_pos rfl]
  | ok tree => rw [step_of_ok h, Option.isSome_none, if_neg Bool.false_ne_true]

/-! ## All steps -/

/-- Where nothing waits, a run changes nothing. -/
theorem run_of_pending_eq_nil (h : x.pending = []) (room : Nat) : x.run t ctx room = x := by
  cases room with
  | zero => rfl
  | succ room => rw [run, h]; rfl

theorem run_of_takeNext?_eq_none (h : PendingCall.takeNext? x.pending = none) (room : Nat) :
    x.run t ctx room = x :=
  run_of_pending_eq_nil ((PendingCall.takeNext?_eq_none_iff _).mp h) room

theorem run_succ_of_ok (hnext : PendingCall.takeNext? x.pending = some (next, others))
    (hok : (x.step t ctx next others).failure = none) (room : Nat) :
    x.run t ctx (room + 1) = (x.step t ctx next others).run t ctx room := by
  rw [run, hnext]
  dsimp only
  rw [hok]

theorem run_succ_of_failed {e : TransformError}
    (hnext : PendingCall.takeNext? x.pending = some (next, others))
    (he : (x.step t ctx next others).failure = some e) (room : Nat) :
    x.run t ctx (room + 1) = x.step t ctx next others := by
  rw [run, hnext]
  dsimp only
  rw [he]

/-- What every step keeps, a run keeps. Steps are made only while none has failed. -/
theorem run_induction {P : Expansion → Prop}
    (hstep : ∀ x next others, P x → x.failure = none →
      PendingCall.takeNext? x.pending = some (next, others) → P (x.step t ctx next others))
    (room : Nat) (hx : P x) (hok : x.failure = none) : P (x.run t ctx room) := by
  induction room generalizing x with
  | zero => exact hx
  | succ room ih =>
    cases hnext : PendingCall.takeNext? x.pending with
    | none =>
      rw [run_of_takeNext?_eq_none hnext]
      exact hx
    | some n =>
      have hy := hstep x n.1 n.2 hx hok hnext
      cases hfailure : (x.step t ctx n.1 n.2).failure with
      | some e =>
        rw [run_succ_of_failed hnext hfailure]
        exact hy
      | none =>
        rw [run_succ_of_ok hnext hfailure]
        exact ih hy hfailure

/-- A run makes no more steps, and runs no more macros, than it has room for. -/
theorem run_le (t : MacroTable) (ctx : Context) (room : Nat) (x : Expansion) :
    (x.run t ctx room).steps ≤ x.steps + room ∧
      (x.run t ctx room).executions.length ≤ x.executions.length + room := by
  induction room generalizing x with
  | zero => exact ⟨Nat.le_refl _, Nat.le_refl _⟩
  | succ room ih =>
    cases hnext : PendingCall.takeNext? x.pending with
    | none =>
      rw [run_of_takeNext?_eq_none hnext]
      exact ⟨Nat.le_add_right _ _, Nat.le_add_right _ _⟩
    | some n =>
      have hsteps : (x.step t ctx n.1 n.2).steps ≤ x.steps + 1 := by
        rw [steps_step]
        split <;> omega
      have hexecutions : (x.step t ctx n.1 n.2).executions.length ≤ x.executions.length + 1 := by
        rw [executions_step, List.length_append]
        cases (t.attempt ctx x.tree n.1).execution <;> simp
      cases hfailure : (x.step t ctx n.1 n.2).failure with
      | some e =>
        rw [run_succ_of_failed hnext hfailure]
        exact ⟨by omega, by omega⟩
      | none =>
        rw [run_succ_of_ok hnext hfailure]
        have := ih (x.step t ctx n.1 n.2)
        exact ⟨by omega, by omega⟩

/-- A run that ends with room left and without a failure has come to the end of the line. -/
theorem pending_run_eq_nil (room : Nat) (hok : (x.run t ctx room).failure = none)
    (hroom : (x.run t ctx room).steps < x.steps + room) : (x.run t ctx room).pending = [] := by
  induction room generalizing x with
  | zero => exact absurd hroom (Nat.lt_irrefl _)
  | succ room ih =>
    cases hnext : PendingCall.takeNext? x.pending with
    | none =>
      have hpending := (PendingCall.takeNext?_eq_none_iff _).mp hnext
      rw [run_of_pending_eq_nil hpending]
      exact hpending
    | some n =>
      cases hfailure : (x.step t ctx n.1 n.2).failure with
      | some e =>
        rw [run_succ_of_failed hnext hfailure] at hok
        cases hfailure.symm.trans hok
      | none =>
        rw [run_succ_of_ok hnext hfailure] at hok hroom ⊢
        have hsteps : (x.step t ctx n.1 n.2).steps = x.steps + 1 := by
          rw [steps_step, hfailure, Option.isSome_none, if_neg Bool.false_ne_true]
        exact ih hok (by omega)

end Expansion

end DocTree
