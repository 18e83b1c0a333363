import DocTree.Proofs.Macro.Worklist

/-!
# Restricted expansion does not depend on unsafe macros

On trees that are not trusted, calls of unsafe macros are left alone. The check is made when a call
is put in line, and the macro is looked up again, by name, when its turn has come. In between, other
blocks may come to stand at its position, and macros may have produced further calls.

Names decide: what waits has the name of a macro that may run (`Expansion.Confined`), so what runs
has one too. Two tables that agree on safe macros (`MacroTable.SameSafe`) put the same calls in line
and look up the same macros for them, so they make the same steps.

## Main result

* `MacroTable.expand_eq_of_sameSafe`: two such tables leave the same tree and the same failure, and
  only safe macros run.
-/

namespace DocTree

/-- Two tables hold the same safe macros under the same names. The others may differ in all
respects. -/
def MacroTable.SameSafe (t u : MacroTable) : Prop :=
  ∀ name m, m.restrictedSafe = true → (t.get? name = some m ↔ u.get? name = some m)

/-- Whatever waits, and whatever has run, has the name of a macro that may run. -/
structure Expansion.Confined (t : MacroTable) (ctx : Context) (x : Expansion) : Prop where
  pending : ∀ w ∈ x.pending, (t.expandable? ctx w.name).isSome
  executions : ∀ e ∈ x.executions, (t.expandable? ctx e.name).isSome

variable {t u : MacroTable} {ctx : Context} {tree : Block} {p : Path}

/-! ## What is put in line -/

theorem isSome_expandable?_of_mem {w : PendingCall} (h : w ∈ tree.pendingCalls t ctx p) :
    (t.expandable? ctx w.name).isSome := by
  cases htop : tree.get? p with
  | none =>
    rw [Block.pendingCalls, htop] at h
    cases h
  | some top =>
    obtain ⟨-, hw⟩ := (mem_pendingCalls htop).mp h
    obtain ⟨c, hc, rfl⟩ := Option.map_eq_some_iff.mp hw
    obtain ⟨-, b, -, -, -, hcallee⟩ := candidateAt?_eq_some_iff.mp hc
    exact Option.isSome_of_eq_some hcallee

theorem pendingCalls_congr (h : ∀ name, t.expandable? ctx name = u.expandable? ctx name) :
    tree.pendingCalls t ctx p = tree.pendingCalls u ctx p := by
  simp only [Block.pendingCalls, h]

namespace MacroTable

theorem SameSafe.expandable?_eq (h : t.SameSafe u) (hctx : ctx.restricted = true) (name : String) :
    t.expandable? ctx name = u.expandable? ctx name := by
  refine Option.ext fun m => ?_
  rw [expandable?_eq_some_iff, expandable?_eq_some_iff]
  constructor
  · rintro ⟨hm, hsafe⟩
    exact ⟨(h name m (hsafe hctx)).mp hm, hsafe⟩
  · rintro ⟨hm, hsafe⟩
    exact ⟨(h name m (hsafe hctx)).mpr hm, hsafe⟩

/-- A macro that may run is looked up again as the one that was found. -/
theorem get?_eq_of_expandable?_eq {name : String}
    (h : t.expandable? ctx name = u.expandable? ctx name)
    (hname : (t.expandable? ctx name).isSome) : t.get? name = u.get? name := by
  obtain ⟨m, hm⟩ := Option.isSome_iff_exists.mp hname
  rw [(expandable?_eq_some_iff.mp hm).1, (expandable?_eq_some_iff.mp (h ▸ hm)).1]

theorem attempt_congr {next : PendingCall} (h : t.get? next.name = u.get? next.name)
    (ctx : Context) (tree : Block) : t.attempt ctx tree next = u.attempt ctx tree next := by
  rw [attempt, attempt, h]

/-- An unsafe macro under a new name makes no difference. -/
theorem sameSafe_insert {name : String} {m : Macro} (hm : m.restrictedSafe = false)
    (hname : t.get? name = none) : SameSafe (t.insert name m) t := by
  intro other m' hsafe
  rw [KeyMap.get?_insert]
  split
  · rename_i heq
    subst heq
    rw [hname]
    refine ⟨fun h => ?_, nofun⟩
    rw [← Option.some.inj h, hm] at hsafe
    cases hsafe
  · rfl

end MacroTable

/-! ## Steps -/

namespace Expansion

variable {x : Expansion} {next : PendingCall} {others : List PendingCall}

theorem confined_ofTree : (ofTree t ctx tree).Confined t ctx :=
  ⟨fun _ hw => isSome_expandable?_of_mem (p := []) hw, nofun⟩

theorem Confined.step (hx : x.Confined t ctx)
    (hnext : PendingCall.takeNext? x.pending = some (next, others)) :
    (x.step t ctx next others).Confined t ctx := by
  have hperm := (PendingCall.takeNext?_spec hnext).1
  have hname : (t.expandable? ctx next.name).isSome :=
    hx.pending next (hperm.subset List.mem_cons_self)
  have hothers : ∀ w ∈ others, (t.expandable? ctx w.name).isSome := fun w hw =>
    hx.pending w (hperm.subset (List.mem_cons_of_mem _ hw))
  refine ⟨?_, fun e he => ?_⟩
  · cases h : (t.attempt ctx x.tree next).result with
    | error e =>
      rw [step_of_error h]
      exact hothers
    | ok tree =>
      rw [step_of_ok h]
      exact fun w hw => (List.mem_append.mp hw).elim (hothers w) isSome_expandable?_of_mem
  · rw [executions_step] at he
    rcases List.mem_append.mp he with he | he
    · exact hx.executions e he
    · rw [name_of_execution (Option.mem_toList.mp he)]
      exact hname

theorem step_congr (h : ∀ name, t.expandable? ctx name = u.expandable? ctx name)
    (hname : (t.expandable? ctx next.name).isSome) :
    x.step t ctx next others = x.step u ctx next others := by
  have hattempt := MacroTable.attempt_congr
    (MacroTable.get?_eq_of_expandable?_eq (h next.name) hname) ctx x.tree
  cases hresult : (t.attempt ctx x.tree next).result with
  | error e => rw [step_of_error hresult, step_of_error (hattempt ▸ hresult), hattempt]
  | ok tree =>
    rw [step_of_ok hresult, step_of_ok (hattempt ▸ hresult), hattempt, pendingCalls_congr h]

theorem run_congr (h : ∀ name, t.expandable? ctx name = u.expandable? ctx name) (room : Nat)
    (hx : x.Confined t ctx) : x.run t ctx room = x.run u ctx room := by
  induction room generalizing x with
  | zero => rfl
  | succ room ih =>
    rw [run, run]
    cases hnext : PendingCall.takeNext? x.pending with
    | none => rfl
    | some n =>
      have hmem := (PendingCall.takeNext?_spec hnext).1.subset List.mem_cons_self
      dsimp only
      rw [← step_congr h (hx.pending n.1 hmem), ih (hx.step hnext)]

end Expansion

/-! ## Main result -/

namespace MacroTable

/-- On a tree that is not trusted, two tables with the same safe macros make the same steps, so they
leave the same tree and the same failure. Each macro that runs is one of the safe ones, also if its
call was produced by a macro. -/
theorem expand_eq_of_sameSafe {t u : MacroTable} (h : t.SameSafe u) {ctx : Context}
    (hctx : ctx.restricted = true) (maxSteps : Nat) (tree : Block) :
    t.expand maxSteps ctx tree = u.expand maxSteps ctx tree ∧
      ∀ e ∈ (t.expand maxSteps ctx tree).executions, ∃ m, m.restrictedSafe = true ∧
        t.get? e.name = some m ∧ u.get? e.name = some m := by
  have hexpandable := h.expandable?_eq hctx
  refine ⟨?_, fun e he => ?_⟩
  · rw [expand, expand, Expansion.run_congr hexpandable maxSteps Expansion.confined_ofTree,
      Expansion.ofTree, Expansion.ofTree, pendingCalls_congr hexpandable]
  · have hconfined : (t.expand maxSteps ctx tree).Confined t ctx :=
      Expansion.run_induction (fun _ _ _ hx _ hnext => hx.step hnext) maxSteps
        Expansion.confined_ofTree rfl
    obtain ⟨m, hm⟩ := Option.isSome_iff_exists.mp (hconfined.executions e he)
    obtain ⟨hget, hsafe⟩ := expandable?_eq_some_iff.mp hm
    exact ⟨m, hsafe hctx, hget, (h e.name m (hsafe hctx)).mp hget⟩

/-! ### A safe macro that produces a call of an unsafe one -/

/-- `quote` is safe and produces a call of `shout`. -/
def quoting : MacroTable :=
  (∅ : MacroTable).insert "quote"
    { restrictedSafe := true, run := fun _ => .ok [.macroCall { name := "shout" } ∅] }

/-- `shout` is not safe. It would go first. -/
def shouting : MacroTable :=
  quoting.insert "shout" { priority := 1, run := fun _ => .ok [.word "loud"] }

/-- A call of each macro, one of them below the other. -/
def shoutBelowQuote : Block :=
  .group [⟨.leaf (.macroCall { name := "quote" }), [.macroCall { name := "shout" } ∅], ∅⟩,
    .macroCall { name := "shout" } ∅]

theorem expand_shouting :
    SameSafe shouting quoting ∧ ({ restricted := true } : Context).restricted = true ∧
      shouting.expand 100 { restricted := true } shoutBelowQuote =
        quoting.expand 100 { restricted := true } shoutBelowQuote ∧
      (shouting.expand 100 { restricted := true } shoutBelowQuote).tree =
        .group [.macroMarker { name := "quote" } ∅ [.macroCall { name := "shout" } ∅],
          .macroCall { name := "shout" } ∅] ∧
      (shouting.expand 100 {} shoutBelowQuote).tree =
        .group [.macroMarker { name := "quote" } ∅ [.macroMarker { name := "shout" } ∅
          [.word "loud"]], .macroMarker { name := "shout" } ∅ [.word "loud"]] :=
  have hsame : SameSafe shouting quoting := sameSafe_insert rfl rfl
  ⟨hsame, rfl, (expand_eq_of_sameSafe hsame rfl 100 shoutBelowQuote).1, by decide +kernel,
    by decide +kernel⟩

end MacroTable

end DocTree
