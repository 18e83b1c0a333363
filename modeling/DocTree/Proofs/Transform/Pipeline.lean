import DocTree.Transform.Pipeline

/-!
# Runs of pipelines

A pipeline puts each new pass in its place and runs the allowed passes one after the other. The two
sides of that:

**Order.** Passes that were added one by one are in the stable order by priority, which is what
sorting the whole list once gives.

**Run** (`Ends`). What a run comes to is said without running: each pass works on what the ones
before it leave (`leftBy`), and either none of them fails, or the run is over with the first one
that does. Its tree stays as that pass left it, and nothing after it counts.

## Main results

* `run_ofList`: order, run, outcome, and that unsafe passes do not matter for trees that are not
  trusted.
* `runAll_eq_iff`: a run of allowed passes comes to one end, the one described.
-/

namespace DocTree.Pipeline

/-! ## The order of passes -/

theorem passes_ofList (ps : List Pass) :
    (ofList ps).passes = Ranking.ofList (fun p => (p.priority : Int)) ps := by
  suffices ∀ l : Pipeline, (ps.foldl add l).passes =
      ps.foldl (fun acc p => Ranking.insert (fun p => (p.priority : Int)) p acc) l.passes from
    this {}
  induction ps with
  | nil => exact fun _ => rfl
  | cons p ps ih => exact fun l => ih (l.add p)

theorem passes_ofList_eq_mergeSort (ps : List Pass) :
    (ofList ps).passes = ps.mergeSort fun p q => p.priority ≤ q.priority := by
  rw [passes_ofList, Ranking.ofList_eq_mergeSort]
  simp only [Int.ofNat_le]

/-- Leaving passes out before they are added is leaving them out afterwards. -/
theorem passes_ofList_filter (keep : Pass → Bool) (ps : List Pass) :
    (ofList (ps.filter keep)).passes = (ofList ps).passes.filter keep := by
  rw [passes_ofList, passes_ofList, Ranking.ofList_filter]

/-! ## The end of a run -/

/-- The tree that passes leave, each given the tree of the one before it, whether they fail or
not. -/
def leftBy (ctx : Context) (ps : List Pass) (tree : Block) : Block :=
  ps.foldl (fun b p => (p.run ctx b).tree) tree

/-- No pass fails on the tree that the ones before it leave. -/
def Succeed (ctx : Context) (ps : List Pass) (tree : Block) : Prop :=
  ∀ before p after, ps = before ++ p :: after → (p.run ctx (leftBy ctx before tree)).failure = none

/-- What a run of passes may come to. -/
inductive Ends (ctx : Context) (ps : List Pass) (tree : Block) : Transformed → Prop
  | ok (h : Succeed ctx ps tree) : Ends ctx ps tree { tree := leftBy ctx ps tree }
  | failed (before : List Pass) (p : Pass) (after : List Pass) (cause : TransformError)
      (hps : ps = before ++ p :: after) (hbefore : Succeed ctx before tree)
      (hp : (p.run ctx (leftBy ctx before tree)).failure = some cause) :
      Ends ctx ps tree
        { tree := leftBy ctx (before ++ [p]) tree, failure := some (.pass p.name cause) }

variable {ctx : Context} {p : Pass} {ps : List Pass} {tree : Block} {r : Transformed}

theorem succeed_nil : Succeed ctx [] tree := by
  intro before p after h
  cases before <;> cases h

theorem succeed_cons_iff : Succeed ctx (p :: ps) tree ↔
    (p.run ctx tree).failure = none ∧ Succeed ctx ps (p.run ctx tree).tree := by
  constructor
  · intro h
    exact ⟨h [] p ps rfl, fun before q after hps => h (p :: before) q after (congrArg (p :: ·) hps)⟩
  · rintro ⟨hp, hps⟩ before q after h
    cases before with
    | nil =>
      obtain ⟨rfl, rfl⟩ := List.cons.inj h
      exact hp
    | cons b before =>
      obtain ⟨rfl, htail⟩ := List.cons.inj h
      exact hps before q after htail

theorem runAll_cons_of_ok (hp : p.allowed ctx = true) (h : (p.run ctx tree).failure = none) :
    runAll ctx (p :: ps) tree = runAll ctx ps (p.run ctx tree).tree := by
  simp only [runAll, hp, if_true, h]

theorem runAll_cons_of_failed {cause : TransformError} (hp : p.allowed ctx = true)
    (h : (p.run ctx tree).failure = some cause) :
    runAll ctx (p :: ps) tree =
      { tree := (p.run ctx tree).tree, failure := some (.pass p.name cause) } := by
  simp only [runAll, hp, if_true, h]

theorem ends_runAll (hps : ∀ p ∈ ps, p.allowed ctx = true) (tree : Block) :
    Ends ctx ps tree (runAll ctx ps tree) := by
  induction ps generalizing tree with
  | nil => exact .ok succeed_nil
  | cons p ps ih =>
    obtain ⟨hp, hps⟩ := List.forall_mem_cons.mp hps
    cases hrun : (p.run ctx tree).failure with
    | some cause =>
      rw [runAll_cons_of_failed hp hrun]
      exact .failed [] p ps cause rfl succeed_nil hrun
    | none =>
      rw [runAll_cons_of_ok hp hrun]
      have hends := ih hps (p.run ctx tree).tree
      generalize runAll ctx ps (p.run ctx tree).tree = r at hends ⊢
      cases hends with
      | ok h => exact .ok (succeed_cons_iff.mpr ⟨hrun, h⟩)
      | failed before q after cause hps hbefore hq =>
        exact .failed (p :: before) q after cause (congrArg (p :: ·) hps)
          (succeed_cons_iff.mpr ⟨hrun, hbefore⟩) hq

theorem runAll_of_ends (hps : ∀ p ∈ ps, p.allowed ctx = true) (h : Ends ctx ps tree r) :
    runAll ctx ps tree = r := by
  induction ps generalizing tree with
  | nil =>
    cases h with
    | ok => rfl
    | failed _ _ _ _ heq => exact nomatch (List.append_eq_nil_iff.mp heq.symm).2
  | cons p ps ih =>
    obtain ⟨hp, hps⟩ := List.forall_mem_cons.mp hps
    cases h with
    | ok h =>
      obtain ⟨hrun, h⟩ := succeed_cons_iff.mp h
      rw [runAll_cons_of_ok hp hrun]
      exact ih hps (.ok h)
    | failed before q after cause heq hbefore hq =>
      cases before with
      | nil =>
        obtain ⟨rfl, rfl⟩ := List.cons.inj heq
        exact runAll_cons_of_failed hp hq
      | cons b before =>
        obtain ⟨rfl, htail⟩ := List.cons.inj heq
        obtain ⟨hrun, hbefore⟩ := succeed_cons_iff.mp hbefore
        rw [runAll_cons_of_ok hp hrun]
        exact ih hps (.failed before q after cause htail hbefore hq)

/-- A run of allowed passes comes to one end. -/
theorem runAll_eq_iff (hps : ∀ p ∈ ps, p.allowed ctx = true) :
    runAll ctx ps tree = r ↔ Ends ctx ps tree r :=
  ⟨fun h => h ▸ ends_runAll hps tree, runAll_of_ends hps⟩

theorem failure_runAll_eq_none_iff (hps : ∀ p ∈ ps, p.allowed ctx = true) :
    (runAll ctx ps tree).failure = none ↔ Succeed ctx ps tree := by
  constructor
  · intro hok
    have hends := ends_runAll hps tree
    generalize runAll ctx ps tree = r at hok hends
    cases hends with
    | ok h => exact h
    | failed => cases hok
  · intro h
    rw [runAll_of_ends hps (.ok h)]

/-- What every pass keeps, a run of passes keeps, also if it ends early. -/
theorem runAll_induction {P : Block → Prop} (hps : ∀ p ∈ ps, ∀ b, P b → P (p.run ctx b).tree)
    (h : P tree) : P (runAll ctx ps tree).tree := by
  induction ps generalizing tree with
  | nil => exact h
  | cons p ps ih =>
    obtain ⟨hp, hps⟩ := List.forall_mem_cons.mp hps
    cases hallowed : p.allowed ctx with
    | false =>
      simp only [runAll, hallowed, Bool.false_eq_true, if_false]
      exact ih hps h
    | true =>
      cases hrun : (p.run ctx tree).failure with
      | none =>
        rw [runAll_cons_of_ok hallowed hrun]
        exact ih hps (hp tree h)
      | some cause =>
        rw [runAll_cons_of_failed hallowed hrun]
        exact hp tree h

/-- A tree that no pass changes stays as it is. -/
theorem runAll_of_unchanged
    (hps : ∀ p ∈ ps, p.allowed ctx = true ∧ p.run ctx tree = { tree }) :
    runAll ctx ps tree = { tree } := by
  induction ps with
  | nil => rfl
  | cons p ps ih =>
    obtain ⟨⟨hallowed, hrun⟩, hps⟩ := List.forall_mem_cons.mp hps
    rw [runAll_cons_of_ok hallowed (by rw [hrun]), hrun]
    exact ih hps

/-- Some passes make one change and the others none. If to repeat the change does nothing, the run
makes it once. -/
theorem runAll_of_idempotent {f : Block → Block} (hf : ∀ b, f (f b) = f b)
    (hps : ∀ p ∈ ps, p.allowed ctx = true ∧
      ((∀ b, p.run ctx b = { tree := f b }) ∨ ∀ b, p.run ctx b = { tree := b }))
    (hchange : ∃ p ∈ ps, ∀ b, p.run ctx b = { tree := f b }) :
    runAll ctx ps tree = { tree := f tree } := by
  induction ps with
  | nil => exact nomatch hchange
  | cons p ps ih =>
    obtain ⟨⟨hallowed, hp⟩, hps⟩ := List.forall_mem_cons.mp hps
    -- Of a pass that makes the change on, the tree is one that no pass changes.
    have hfirst (hrun : ∀ b, p.run ctx b = { tree := f b }) :
        runAll ctx (p :: ps) tree = { tree := f tree } := by
      rw [runAll_cons_of_ok hallowed (by rw [hrun]), hrun]
      refine runAll_of_unchanged fun q hq => ⟨(hps q hq).1, ?_⟩
      rcases (hps q hq).2 with hq | hq
      · rw [hq, hf]
      · exact hq _
    rcases hp with hrun | hrun
    · exact hfirst hrun
    · obtain ⟨q, hq, hchange⟩ := hchange
      rcases List.mem_cons.mp hq with rfl | hq
      · exact hfirst hchange
      · rw [runAll_cons_of_ok hallowed (by rw [hrun]), hrun]
        exact ih hps ⟨q, hq, hchange⟩

theorem mem_passes_ofList : p ∈ (ofList ps).passes ↔ p ∈ ps := by
  rw [passes_ofList_eq_mergeSort, List.mem_mergeSort]

/-! ## Main result -/

theorem allowed_of_restricted (hctx : ctx.restricted = true) :
    Pass.allowed ctx = Pass.restrictedSafe := by
  funext p
  rw [Pass.allowed, hctx, Bool.not_true, Bool.false_or]

/-- Passes that were added one by one are in the stable order by priority. A run comes to what the
allowed ones come to in this order, one after the other up to the first failure, and it is without a
failure if none of them fails. On trees that are not trusted, only the safe passes matter. -/
theorem run_ofList (ps : List Pass) (ctx : Context) (tree : Block) :
    let l := ofList ps
    let due := l.passes.filter (·.allowed ctx)
    l.passes = ps.mergeSort (fun p q => p.priority ≤ q.priority) ∧
      (∀ r, l.run ctx tree = r ↔ Ends ctx due tree r) ∧
      ((l.run ctx tree).failure = none ↔ Succeed ctx due tree) ∧
      (ctx.restricted = true →
        l.run ctx tree = (ofList (ps.filter (·.restrictedSafe))).run ctx tree) := by
  intro l due
  have hdue : ∀ p ∈ due, p.allowed ctx = true := fun p hp => (List.mem_filter.mp hp).2
  have hrun : l.run ctx tree = runAll ctx due tree := (runAll_filter_allowed ctx l.passes tree).symm
  refine ⟨passes_ofList_eq_mergeSort ps, fun r => ?_, ?_, fun hctx => ?_⟩
  · rw [hrun, runAll_eq_iff hdue]
  · rw [hrun, failure_runAll_eq_none_iff hdue]
  · rw [hrun, run, passes_ofList_filter]
    exact congrArg (runAll ctx · tree)
      (congrArg (List.filter · l.passes) (allowed_of_restricted hctx))

/-! ### A run that ends early -/

/-- Adds a word at the end of the tree, and fails if told so. -/
def marking (name : String) (priority : Nat) (safe : Bool) (problem : Option String) : Pass where
  name
  priority
  restrictedSafe := safe
  run _ tree := { tree := tree.push (.word name), failure := problem.map .failed }

/-- Two passes share a priority, and the one that was added first fails. -/
def markings : List Pass :=
  [marking "late" 500 true (some "broken"), marking "unsafe" 1 false none,
    marking "early" 100 true none, marking "later" 500 true none]

/-- The unsafe pass is left out, and the word of the pass that fails stays. -/
theorem run_markings :
    ({ restricted := true } : Context).restricted = true ∧
      (ofList markings).run { restricted := true } (.group []) =
        (ofList (markings.filter (·.restrictedSafe))).run { restricted := true } (.group []) ∧
      (ofList markings).run { restricted := true } (.group []) =
        { tree := .group [.word "early", .word "late"]
          failure := some (.pass "late" (.failed "broken")) } :=
  ⟨rfl, (run_ofList markings { restricted := true } (.group [])).2.2.2 rfl, rfl⟩

end DocTree.Pipeline
