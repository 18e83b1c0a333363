import DocTree.Proofs.Macro.Worklist

/-!
# Expansion is complete

An expansion that ends by itself, without a failure and with room left, leaves no call that is to be
expanded (`Block.Settled`), whatever the macros produce, and also in trees in which calls have
blocks below them.

In such trees a waiting call may have vanished with the call around it, another block may stand at
its position, and one call may wait twice. So what waits is not what is to be expanded. But it
covers it (`Expansion.Covered`): a step changes the tree at and below one position only, and there
it searches again.

## Main result

* `MacroTable.expand_settled`: the bounds of a run, and that a run that ends by itself leaves
  nothing to do for another one.
-/

namespace DocTree

/-- Calls of a name are to be expanded: a macro has the name, and it may run in the context. -/
def MacroTable.Expandable (t : MacroTable) (ctx : Context) (name : String) : Prop :=
  ∃ m, t.get? name = some m ∧ (ctx.restricted = true → m.restrictedSafe = true)

/-- No call of the tree is to be expanded. -/
def Block.Settled (t : MacroTable) (ctx : Context) (tree : Block) : Prop :=
  tree.All fun b => ∀ call, b.call? = some call → ¬ t.Expandable ctx call.name

/-- Each call of the tree that is to be expanded waits. -/
def Expansion.Covered (t : MacroTable) (ctx : Context) (x : Expansion) : Prop :=
  ∀ w, waitingAt? t ctx x.tree w.path = some w → w ∈ x.pending

variable {t : MacroTable} {ctx : Context} {tree : Block}

/-! ## Settled trees -/

theorem settled_iff : tree.Settled t ctx ↔ ∀ p, candidateAt? t ctx tree p = none := by
  constructor
  · intro h p
    refine Option.eq_none_iff_forall_ne_some.mpr fun c hc => ?_
    obtain ⟨-, b, hb, hcall, -, hcallee⟩ := candidateAt?_eq_some_iff.mp hc
    exact h p b hb c.call hcall ⟨_, MacroTable.expandable?_eq_some_iff.mp hcallee⟩
  · rintro h p b hb call hcall ⟨m, hm⟩
    have hc : candidateAt? t ctx tree p =
        some { path := p, call, parameters := b.parameters, callee := m } :=
      candidateAt?_eq_some_iff.mpr
        ⟨rfl, b, hb, hcall, rfl, MacroTable.expandable?_eq_some_iff.mpr hm⟩
    exact nomatch (h p).symm.trans hc

theorem candidates_eq_nil (h : tree.Settled t ctx) : candidates t ctx tree = [] :=
  List.filterMap_eq_nil_iff.mpr fun p _ => settled_iff.mp h p

/-- In a settled tree, nothing waits from the start. -/
theorem Expansion.ofTree_of_settled (h : tree.Settled t ctx) : ofTree t ctx tree = { tree } := by
  rw [ofTree, pendingCalls_root, candidates_eq_nil h, List.map_nil]

namespace Expansion

variable {x : Expansion}

/-! ## What waits covers what is to be expanded -/

theorem covered_ofTree : (ofTree t ctx tree).Covered t ctx := fun _ hw =>
  (mem_pendingCalls (Block.get?_nil tree)).mpr ⟨List.nil_prefix, hw⟩

/-- A step without a failure keeps what is to be expanded covered. -/
theorem Covered.step {next : PendingCall} {others : List PendingCall} (hx : x.Covered t ctx)
    (hnext : PendingCall.takeNext? x.pending = some (next, others))
    (hok : (x.step t ctx next others).failure = none) :
    (x.step t ctx next others).Covered t ctx := by
  have hperm := (PendingCall.takeNext?_spec hnext).1
  cases hresult : (t.attempt ctx x.tree next).result with
  | error e =>
    rw [step_of_error hresult] at hok
    cases hok
  | ok tree =>
    rw [step_of_ok hresult]
    intro w hw
    change waitingAt? t ctx tree w.path = some w at hw
    refine List.mem_append.mpr ?_
    by_cases hbelow : next.path <+: w.path
    · -- At and below the position the tree was searched again.
      obtain ⟨c, hc, -⟩ := Option.map_eq_some_iff.mp hw
      obtain ⟨-, b, hb, -⟩ := candidateAt?_eq_some_iff.mp hc
      obtain ⟨top, htop⟩ := Option.isSome_iff_exists.mp
        (Block.isSome_get?_of_prefix hbelow (by rw [hb]; rfl))
      exact .inr ((mem_pendingCalls htop).mpr ⟨hbelow, hw⟩)
    · -- Elsewhere the tree is what it was, and the call that was taken stood at the position.
      have hbefore : waitingAt? t ctx x.tree w.path = some w := by
        rcases tree_of_attempt hresult with rfl | ⟨b, marker, -, rfl⟩
        · exact hw
        · rwa [waitingAt?_setAt _ hbelow] at hw
      rcases List.mem_cons.mp (hperm.symm.subset (hx w hbefore)) with rfl | hothers
      · exact absurd List.prefix_rfl hbelow
      · exact .inl hothers

theorem covered_run (room : Nat) (hok : ((ofTree t ctx tree).run t ctx room).failure = none) :
    ((ofTree t ctx tree).run t ctx room).Covered t ctx :=
  run_induction (P := fun x => x.failure = none → x.Covered t ctx)
    (fun _ _ _ hx hok hnext hok' => (hx hok).step hnext hok') room (fun _ => covered_ofTree) rfl hok

/-- If nothing waits, nothing is to be expanded. -/
theorem Covered.settled (hx : x.Covered t ctx) (hpending : x.pending = []) :
    x.tree.Settled t ctx := by
  refine settled_iff.mpr fun p => Option.eq_none_iff_forall_ne_some.mpr fun c hc => ?_
  have hw : waitingAt? t ctx x.tree p = some c.waiting := by rw [waitingAt?, hc, Option.map_some]
  have hmem := hx c.waiting (by rw [path_of_waitingAt? hw, hw])
  rw [hpending] at hmem
  cases hmem

end Expansion

/-! ## Main result -/

namespace MacroTable

/-- A run makes at most as many steps, and executes at most as many macros, as it may. If it ends
without a failure before it has made all of them, no call in the tree is to be expanded, and another
run on that tree, of any length, makes no step and executes no macro. -/
theorem expand_settled (t : MacroTable) (ctx : Context) (maxSteps : Nat) (tree : Block) :
    let x := t.expand maxSteps ctx tree
    x.steps ≤ maxSteps ∧ x.executions.length ≤ maxSteps ∧
      (x.failure = none → x.steps < maxSteps →
        x.tree.Settled t ctx ∧ ∀ room, t.expand room ctx x.tree = { tree := x.tree }) := by
  intro x
  obtain ⟨hsteps, hexecutions⟩ := Expansion.run_le t ctx maxSteps (Expansion.ofTree t ctx tree)
  have hstart : (Expansion.ofTree t ctx tree).steps = 0 ∧
      (Expansion.ofTree t ctx tree).executions.length = 0 := ⟨rfl, rfl⟩
  rw [hstart.1, Nat.zero_add] at hsteps
  rw [hstart.2, Nat.zero_add] at hexecutions
  refine ⟨hsteps, hexecutions, fun hok hroom => ?_⟩
  have hpending : x.pending = [] :=
    Expansion.pending_run_eq_nil maxSteps hok (by rwa [Nat.add_comm])
  have hsettled : x.tree.Settled t ctx := (Expansion.covered_run maxSteps hok).settled hpending
  refine ⟨hsettled, fun room => ?_⟩
  rw [expand, Expansion.ofTree_of_settled hsettled]
  exact Expansion.run_of_pending_eq_nil rfl room

/-! ### A macro that calls itself, in a tree with a call below a call -/

/-- Near the root, `deepen` produces a call of itself. -/
def deepening : MacroTable :=
  (∅ : MacroTable).insert "deepen"
    { run := fun i =>
        if i.path.length < 3 then .ok [.macroCall { name := "deepen" } ∅] else .ok [.word "deep"] }

def callBelowCall : Block :=
  .group [⟨.leaf (.macroCall { name := "deepen" }), [.macroCall { name := "deepen" } ∅], ∅⟩]

/-- The inner call vanishes with the outer one, and its turn comes for nothing, as does the second
turn of the call that the search then finds again. -/
theorem expand_deepening :
    let x := deepening.expand 100 {} callBelowCall
    (x.failure = none ∧ x.steps = 5 ∧ x.steps < 100 ∧ x.executions.length = 3) ∧
      x.tree = .group [.macroMarker { name := "deepen" } ∅ [.macroMarker { name := "deepen" } ∅
        [.macroMarker { name := "deepen" } ∅ [.word "deep"]]]] ∧
      x.tree.Settled deepening {} ∧ ∀ room, deepening.expand room {} x.tree = { tree := x.tree } := by
  intro x
  have hrun : x.failure = none ∧ x.steps = 5 ∧ x.steps < 100 ∧ x.executions.length = 3 := by
    decide +kernel
  exact ⟨hrun, by decide +kernel,
    (expand_settled deepening {} 100 callBelowCall).2.2 hrun.1 hrun.2.2.1⟩

end MacroTable

end DocTree
