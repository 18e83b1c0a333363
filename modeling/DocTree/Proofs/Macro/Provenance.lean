import DocTree.Proofs.Macro.Worklist

/-!
# What a macro is given

A call that waits is remembered by its position and its name. When its turn comes, the name says
which macro runs, and the block that then stands at the position says with which parameters and
content. The two need not belong together any more.

**Both halves** (`Execution.Occurs`). Whatever the tree, there is a call at the position, the macro
is given the parameters, the content and the inline flag of that call, and the marker in its place
bears the name of the macro. That name is the one of the call that stood at the position when it was
searched.

**When they are of one call** (`Displaced`). They are, unless a macro ran in between, further up, on
a call with calls below it: their positions then belong to what that macro has produced. The
invariant (`Expansion.Addressed`) says of all other positions that the calls which wait stand where
they were found, and wait once.

## Main results

* `Expansion.Addressed.step`: a step keeps the invariant.
* `MacroTable.expand_executions`: all of this, for every execution of a run.
* `MacroTable.expand_foreignCall`: a macro that is given the call of another one.
-/

namespace DocTree

/-- The macro ran on a call with calls below it that were to be expanded. -/
def Execution.AboveCall (t : MacroTable) (ctx : Context) (e : Execution) : Prop :=
  ∃ p, e.invocation.path <+: p ∧ p ≠ e.invocation.path ∧
    (waitingAt? t ctx e.invocation.root p).isSome

/-- A macro ran on a call with calls below it, and the position is below that call. -/
def Displaced (t : MacroTable) (ctx : Context) (ran : List Execution) (p : Path) : Prop :=
  ∃ e ∈ ran, e.invocation.path <+: p ∧ e.invocation.path ≠ p ∧ e.AboveCall t ctx

/-- What a macro was given, and what came of it: the expansion before and after the step, the block
at the position, the call that it is, and the macro. -/
structure Execution.Occurs (t : MacroTable) (ctx : Context) (before after : Expansion)
    (e : Execution) (b : Block) (call : Call) (m : Macro) : Prop where
  found : before.tree.get? e.invocation.path = some b
  calls : b.call? = some call
  callee : t.get? e.name = some m
  given : e.invocation =
    { parameters := b.parameters, content := call.content, inline := call.inline
      root := before.tree, path := e.invocation.path, context := ctx }
  failed : ∀ cause, m.run e.invocation = .error cause →
    after.tree = before.tree ∧ after.failure = some (.expansion e.name cause)
  replaced : ∀ blocks, m.run e.invocation = .ok blocks →
    after.failure = none ∧ after.tree = before.tree.setAt e.invocation.path
      (.macroMarker { call with name := e.name } b.parameters blocks)

/-- Where nothing was displaced, the calls that wait stand at their positions, once each. -/
structure Expansion.Addressed (t : MacroTable) (ctx : Context) (x : Expansion) : Prop where
  waiting : ∀ w ∈ x.pending, ¬ Displaced t ctx x.executions w.path →
    waitingAt? t ctx x.tree w.path = some w
  distinct : x.pending.Pairwise fun v w => v.path = w.path → Displaced t ctx x.executions v.path

variable {t : MacroTable} {ctx : Context} {tree root : Block} {next : PendingCall} {p q : Path}

/-! ## Displaced positions -/

theorem Displaced.append {ran : List Execution} (h : Displaced t ctx ran p)
    (more : List Execution) : Displaced t ctx (ran ++ more) p := by
  obtain ⟨e, he, h⟩ := h
  exact ⟨e, List.mem_append_left more he, h⟩

/-- What is below a displaced position is displaced. -/
theorem Displaced.below {ran : List Execution} (h : Displaced t ctx ran p) (hpq : p <+: q) :
    Displaced t ctx ran q := by
  obtain ⟨e, he, hep, hne, habove⟩ := h
  refine ⟨e, he, hep.trans hpq, fun heq => hne ?_, habove⟩
  rw [← heq] at hpq
  exact hep.eq_of_length_le hpq.length_le

/-! ## Waiting calls and blocks -/

/-- A call that waits and stands at its position is found there, under its own name. -/
theorem name_eq_of_waitingAt? {b : Block} {call : Call}
    (hw : waitingAt? t ctx root next.path = some next) (hb : root.get? next.path = some b)
    (hcall : b.call? = some call) : call.name = next.name := by
  obtain ⟨c, hc, rfl⟩ := Option.map_eq_some_iff.mp hw
  obtain ⟨-, b', hb', hcall', -⟩ := candidateAt?_eq_some_iff.mp hc
  obtain rfl := Option.some.inj (hb.symm.trans hb')
  exact congrArg Call.name (Option.some.inj (hcall.symm.trans hcall'))

theorem exists_found_of_waitingAt? (hw : waitingAt? t ctx root next.path = some next) :
    ∃ b call m, Found t root next b call m := by
  obtain ⟨c, hc, rfl⟩ := Option.map_eq_some_iff.mp hw
  obtain ⟨-, b, hb, hcall, -, hcallee⟩ := candidateAt?_eq_some_iff.mp hc
  exact ⟨b, c.call, c.callee, hb, hcall, get?_of_expandable? hcallee⟩

/-- The calls that a search finds stand at different positions, where it says. -/
theorem waitingAt?_of_mem_pendingCalls {w : PendingCall} (h : w ∈ tree.pendingCalls t ctx p) :
    p <+: w.path ∧ waitingAt? t ctx tree w.path = some w := by
  cases htop : tree.get? p with
  | none =>
    rw [Block.pendingCalls, htop] at h
    cases h
  | some top => exact (mem_pendingCalls htop).mp h

theorem pairwise_pendingCalls :
    (tree.pendingCalls t ctx p).Pairwise fun v w => v.path ≠ w.path := by
  cases htop : tree.get? p with
  | none =>
    rw [Block.pendingCalls, htop]
    exact .nil
  | some top =>
    refine (nodup_pendingCalls htop).imp_of_mem fun hv hw hne hpath => hne ?_
    have hv := (waitingAt?_of_mem_pendingCalls hv).2
    rw [hpath, (waitingAt?_of_mem_pendingCalls hw).2] at hv
    exact (Option.some.inj hv).symm

namespace Expansion

variable {x : Expansion} {others : List PendingCall}

/-! ## One step -/

theorem addressed_ofTree : (ofTree t ctx tree).Addressed t ctx :=
  ⟨fun _ hw _ => (waitingAt?_of_mem_pendingCalls (p := []) hw).2,
    (pairwise_pendingCalls (p := [])).imp fun hne hpath => absurd hpath hne⟩

/-- The calls that still wait when one has been taken. -/
theorem Addressed.remaining (hx : x.Addressed t ctx) (hperm : (next :: others).Perm x.pending)
    (more : List Execution) :
    (∀ w ∈ others, ¬ Displaced t ctx (x.executions ++ more) w.path →
      waitingAt? t ctx x.tree w.path = some w) ∧
      others.Pairwise (fun v w => v.path = w.path →
        Displaced t ctx (x.executions ++ more) v.path) ∧
      ∀ w ∈ others, w.path = next.path → Displaced t ctx x.executions w.path := by
  obtain ⟨hnext, hothers⟩ := List.pairwise_cons.mp (hperm.symm.pairwise hx.distinct
    fun h heq => heq ▸ h heq.symm)
  refine ⟨fun w hw hd => ?_, hothers.imp fun h heq => (h heq).append more, fun w hw heq => ?_⟩
  · exact hx.waiting w (hperm.subset (List.mem_cons_of_mem _ hw)) fun h => hd (h.append more)
  · rw [heq]
    exact hnext w hw heq.symm

/-- A step that changes nothing but at and below the position of the call taken keeps the invariant,
if the calls that wait there are displaced. -/
theorem Addressed.advance (hx : x.Addressed t ctx) (hperm : (next :: others).Perm x.pending)
    {more : List Execution} {steps : Nat}
    (hframe : ∀ q, ¬ next.path <+: q → waitingAt? t ctx tree q = waitingAt? t ctx x.tree q)
    (hbelow : ∀ w ∈ others, next.path <+: w.path →
      Displaced t ctx (x.executions ++ more) w.path) :
    Addressed t ctx { tree, steps, pending := others ++ tree.pendingCalls t ctx next.path
                      executions := x.executions ++ more } := by
  obtain ⟨hwaiting, hdistinct, -⟩ := hx.remaining hperm more
  constructor
  · intro w hw hd
    rcases List.mem_append.mp hw with hw | hw
    · rw [hframe w.path fun hpre => hd (hbelow w hw hpre)]
      exact hwaiting w hw hd
    · exact (waitingAt?_of_mem_pendingCalls hw).2
  · refine List.pairwise_append.mpr ⟨hdistinct, ?_, fun v hv w hw heq => hbelow v hv ?_⟩
    · exact pairwise_pendingCalls.imp fun hne hpath => absurd hpath hne
    · rw [heq]
      exact (waitingAt?_of_mem_pendingCalls hw).1

theorem Addressed.step (hx : x.Addressed t ctx)
    (hnext : PendingCall.takeNext? x.pending = some (next, others)) :
    (x.step t ctx next others).Addressed t ctx := by
  have hperm := (PendingCall.takeNext?_spec hnext).1
  have hmem : next ∈ x.pending := hperm.subset List.mem_cons_self
  have hcomes := comes_attempt t ctx x.tree next
  rw [Expansion.step]
  generalize t.attempt ctx x.tree next = a at hcomes ⊢
  have hstopped : ∀ {failure : Option TransformError} {more : List Execution},
      Addressed t ctx { x with failure, pending := others, executions := x.executions ++ more } :=
    fun {_ more} => ⟨(hx.remaining hperm more).1, (hx.remaining hperm more).2.1⟩
  cases hcomes with
  | refused => exact hstopped
  | failed => exact hstopped
  | passedOver hnone =>
    -- The call that was taken stands no more where it was found, nor does what waits below it.
    have hdisplaced : Displaced t ctx x.executions next.path := by
      by_contra h
      obtain ⟨b, call, m, hfound⟩ := exists_found_of_waitingAt? (hx.waiting next hmem h)
      exact hnone b call m hfound
    exact hx.advance hperm (fun _ _ => rfl) fun w _ hpre => (hdisplaced.below hpre).append _
  | replaced hfound =>
    refine hx.advance hperm (fun q hq => waitingAt?_setAt _ hq) fun w hw hpre => ?_
    by_cases hd : Displaced t ctx x.executions w.path
    · exact hd.append _
    · refine ⟨_, List.mem_append_right _ (List.mem_singleton_self _), hpre, fun heq => hd ?_,
        w.path, hpre, fun heq => hd ?_, ?_⟩
      · exact (hx.remaining hperm []).2.2 w hw heq.symm
      · exact (hx.remaining hperm []).2.2 w hw heq
      · have hwait := hx.waiting w (hperm.subset (List.mem_cons_of_mem _ hw)) hd
        exact Option.isSome_of_eq_some hwait

/-- What a step adds to the record was given the block at the position of the call taken. -/
theorem occurs_step (others : List PendingCall) {e : Execution}
    (h : (t.attempt ctx x.tree next).execution = some e) :
    e.invocation.path = next.path ∧ e.name = next.name ∧
      ∃ b call m, e.Occurs t ctx x (x.step t ctx next others) b call m := by
  have hcomes := comes_attempt t ctx x.tree next
  rw [step]
  generalize t.attempt ctx x.tree next = a at h hcomes ⊢
  cases hcomes with
  | passedOver => cases h
  | refused => cases h
  | failed hfound hinline hrun =>
    obtain rfl := Option.some.inj h
    refine ⟨rfl, rfl, _, _, _, hfound.block, hfound.call, hfound.callee, rfl, fun _ hcause => ?_,
      fun _ hok => by cases hrun.symm.trans hok⟩
    rw [Except.error.inj (hrun.symm.trans hcause)]
    exact ⟨rfl, rfl⟩
  | replaced hfound hinline hrun =>
    obtain rfl := Option.some.inj h
    refine ⟨rfl, rfl, _, _, _, hfound.block, hfound.call, hfound.callee, rfl,
      fun _ hcause => (by cases hrun.symm.trans hcause), fun _ hok => ?_⟩
    rw [Except.ok.inj (hrun.symm.trans hok)]
    exact ⟨rfl, rfl⟩

/-! ## All steps -/

/-- One step of room more makes one step more at the end, or none. -/
theorem run_succ (t : MacroTable) (ctx : Context) (hok : x.failure = none) (room : Nat) :
    x.run t ctx (room + 1) = x.run t ctx room ∨
      (x.run t ctx room).failure = none ∧ ∃ next others,
        PendingCall.takeNext? (x.run t ctx room).pending = some (next, others) ∧
          x.run t ctx (room + 1) = (x.run t ctx room).step t ctx next others := by
  induction room generalizing x with
  | zero =>
    cases hnext : PendingCall.takeNext? x.pending with
    | none => exact .inl (run_of_takeNext?_eq_none hnext 1)
    | some n =>
      refine .inr ⟨hok, n.1, n.2, hnext, ?_⟩
      cases hfailure : (x.step t ctx n.1 n.2).failure with
      | some e => exact run_succ_of_failed hnext hfailure 0
      | none => exact run_succ_of_ok hnext hfailure 0
  | succ room ih =>
    cases hnext : PendingCall.takeNext? x.pending with
    | none =>
      rw [run_of_takeNext?_eq_none hnext, run_of_takeNext?_eq_none hnext]
      exact .inl rfl
    | some n =>
      cases hfailure : (x.step t ctx n.1 n.2).failure with
      | some e =>
        rw [run_succ_of_failed hnext hfailure, run_succ_of_failed hnext hfailure]
        exact .inl rfl
      | none =>
        rw [run_succ_of_ok hnext hfailure, run_succ_of_ok hnext hfailure]
        exact ih hfailure

end Expansion

namespace MacroTable

theorem addressed_expand (t : MacroTable) (ctx : Context) (room : Nat) (tree : Block) :
    (t.expand room ctx tree).Addressed t ctx :=
  Expansion.run_induction (fun _ _ _ hx _ hnext => hx.step hnext) room
    Expansion.addressed_ofTree rfl

/-- A call that waits stood at its position when that was searched. -/
theorem exists_found_of_mem_pending {room : Nat} {w : PendingCall}
    (hw : w ∈ (t.expand room ctx tree).pending) :
    ∃ sooner ≤ room, waitingAt? t ctx (t.expand sooner ctx tree).tree w.path = some w := by
  induction room with
  | zero => exact ⟨0, Nat.le_refl 0, (waitingAt?_of_mem_pendingCalls (p := []) hw).2⟩
  | succ room ih =>
    have hbefore : w ∈ (t.expand room ctx tree).pending →
        ∃ sooner ≤ room + 1, waitingAt? t ctx (t.expand sooner ctx tree).tree w.path = some w := by
      intro hw
      obtain ⟨sooner, hle, hfound⟩ := ih hw
      exact ⟨sooner, Nat.le_succ_of_le hle, hfound⟩
    rcases Expansion.run_succ t ctx (x := .ofTree t ctx tree) rfl room with
      hrun | ⟨-, next, others, hnext, hrun⟩
    · have hsame : t.expand (room + 1) ctx tree = t.expand room ctx tree := hrun
      exact hbefore (hsame ▸ hw)
    · have hperm := (PendingCall.takeNext?_spec hnext).1
      have hothers : w ∈ others → w ∈ (t.expand room ctx tree).pending := fun hw =>
        hperm.subset (List.mem_cons_of_mem _ hw)
      have hstep : t.expand (room + 1) ctx tree =
          (t.expand room ctx tree).step t ctx next others := hrun
      rw [hstep] at hw
      cases hresult : (t.attempt ctx (t.expand room ctx tree).tree next).result with
      | error e =>
        rw [Expansion.step_of_error hresult] at hw
        exact hbefore (hothers hw)
      | ok tree' =>
        rw [Expansion.step_of_ok hresult] at hw hstep
        rcases List.mem_append.mp hw with hw | hw
        · exact hbefore (hothers hw)
        · refine ⟨room + 1, Nat.le_refl _, ?_⟩
          rw [hstep]
          exact (waitingAt?_of_mem_pendingCalls hw).2

/-- An execution in the record of a run was made by one of its steps. -/
theorem exists_step_of_executions {maxSteps : Nat} {before after : List Execution}
    {e : Execution} (h : (t.expand maxSteps ctx tree).executions = before ++ e :: after) :
    ∃ made < maxSteps, ∃ next others,
      (t.expand made ctx tree).failure = none ∧
      PendingCall.takeNext? (t.expand made ctx tree).pending = some (next, others) ∧
      t.expand (made + 1) ctx tree = (t.expand made ctx tree).step t ctx next others ∧
      (t.attempt ctx (t.expand made ctx tree).tree next).execution = some e ∧
      (t.expand made ctx tree).executions = before := by
  induction maxSteps generalizing after with
  | zero => exact absurd h.symm (List.append_ne_nil_of_right_ne_nil _ (List.cons_ne_nil _ _))
  | succ room ih =>
    have hbefore : ∀ {after}, (t.expand room ctx tree).executions = before ++ e :: after → _ :=
      fun h => (ih h).imp fun _ => And.imp_left Nat.lt_succ_of_lt
    rcases Expansion.run_succ t ctx (x := .ofTree t ctx tree) rfl room with
      hrun | ⟨hok, next, others, hnext, hrun⟩
    · exact hbefore ((congrArg Expansion.executions hrun).symm.trans h)
    · have hstep : t.expand (room + 1) ctx tree =
          (t.expand room ctx tree).step t ctx next others := hrun
      rw [hstep, Expansion.executions_step] at h
      cases hexecution : (t.attempt ctx (t.expand room ctx tree).tree next).execution with
      | none =>
        rw [hexecution, Option.toList_none, List.append_nil] at h
        exact hbefore h
      | some e' =>
        rw [hexecution, Option.toList_some] at h
        rcases List.eq_nil_or_concat' after with rfl | ⟨after, last, rfl⟩
        · obtain ⟨hran, rfl⟩ := List.append_singleton_inj.mp h
          exact ⟨room, Nat.lt_succ_self room, next, others, hok, hnext, hstep, hexecution, hran⟩
        · rw [← List.cons_append, ← List.append_assoc] at h
          exact hbefore (List.append_singleton_inj.mp h).1

/-- If calls are childless, and macros produce only such calls, nothing is ever displaced. -/
theorem not_displaced_of_childless (htree : tree.CallsChildless) (ht : t.ProducesChildless)
    {maxSteps : Nat} {before after : List Execution}
    (h : (t.expand maxSteps ctx tree).executions = before ++ after) :
    ¬ Displaced t ctx before p := by
  rintro ⟨d, hd, -, -, q, hdq, hne, hq⟩
  obtain ⟨sooner, later, rfl⟩ := List.append_of_mem hd
  rw [List.append_assoc, List.cons_append] at h
  obtain ⟨made, -, next, others, hok, -, -, hexecution, -⟩ := exists_step_of_executions h
  obtain ⟨-, -, b, call, m, hoccurs⟩ := Expansion.occurs_step others hexecution
  have hchildless : (t.expand made ctx tree).tree.CallsChildless :=
    ((Expansion.run_eq_rescan ht made (Expansion.faithful_ofTree htree) rfl).2 hok).childless
  have hroot : d.invocation.root = (t.expand made ctx tree).tree := by rw [hoccurs.given]
  obtain ⟨w, hw⟩ := Option.isSome_iff_exists.mp hq
  obtain ⟨c, hc, -⟩ := Option.map_eq_some_iff.mp hw
  obtain ⟨-, b', hb', -⟩ := candidateAt?_eq_some_iff.mp hc
  rw [hroot] at hb'
  exact hne (eq_of_below_call hchildless hoccurs.found hoccurs.calls (by rw [hb']; rfl) hdq)

/-! ## Main result -/

/-- Every execution of a run was made by one of its steps, on the call that then stood at the
position. The macro was given the parameters, the content and the inline flag of that call, and the
marker in its place bears the name of the macro. It is the name of the call that stood there in the
same or in an earlier tree, when it was found. It is the call's own name, unless a macro had run
further up on a call that had calls below it; and always if no call has blocks below it. -/
theorem expand_executions (t : MacroTable) (ctx : Context) (maxSteps : Nat) (tree : Block)
    {before after : List Execution} {e : Execution}
    (h : (t.expand maxSteps ctx tree).executions = before ++ e :: after) :
    ∃ made < maxSteps, ∃ b call m,
      (t.expand made ctx tree).executions = before ∧
      (t.expand (made + 1) ctx tree).executions = before ++ [e] ∧
      e.Occurs t ctx (t.expand made ctx tree) (t.expand (made + 1) ctx tree) b call m ∧
      (∃ sooner ≤ made, ∃ w, w.name = e.name ∧
        waitingAt? t ctx (t.expand sooner ctx tree).tree e.invocation.path = some w) ∧
      (¬ Displaced t ctx before e.invocation.path → call.name = e.name) ∧
      (tree.CallsChildless → t.ProducesChildless → call.name = e.name) := by
  obtain ⟨made, hmade, next, others, -, hnext, hstep, hexecution, hran⟩ :=
    exists_step_of_executions h
  obtain ⟨hpath, hname, b, call, m, hoccurs⟩ := Expansion.occurs_step others hexecution
  have hmem : next ∈ (t.expand made ctx tree).pending :=
    (PendingCall.takeNext?_spec hnext).1.subset List.mem_cons_self
  obtain ⟨sooner, hsooner, hfound⟩ := exists_found_of_mem_pending hmem
  have hown : ¬ Displaced t ctx before e.invocation.path → call.name = e.name := by
    intro hd
    rw [hpath, ← hran] at hd
    have hwait := (addressed_expand t ctx made tree).waiting next hmem hd
    rw [hname]
    exact name_eq_of_waitingAt? hwait (hpath ▸ hoccurs.found) hoccurs.calls
  refine ⟨made, hmade, b, call, m, hran, ?_, hstep ▸ hoccurs, ⟨sooner, hsooner, next, hname.symm,
    hpath ▸ hfound⟩, hown, fun htree ht => hown (not_displaced_of_childless htree ht h)⟩
  rw [hstep, Expansion.executions_step, hexecution, hran, Option.toList_some]

/-! ### A call that a macro has produced -/

/-- The last macro that runs in `twoCalls` is given the call that `relay` has produced. -/
theorem expand_relayedCall :
    let x := relaying.expand 100 {} twoCalls
    ∃ before e, x.executions = before ++ [e] ∧
      before.map (·.name) = ["relay", "sizes"] ∧ e.invocation.path = [1, 0] ∧
      ∃ made < 100, ∃ b call m, (relaying.expand made {} twoCalls).executions = before ∧
        e.Occurs relaying {} (relaying.expand made {} twoCalls)
          (relaying.expand (made + 1) {} twoCalls) b call m ∧
        call.name = e.name := by
  intro x
  have hruns : x.executions.map (fun e => (e.name, e.invocation.path)) =
      [("relay", [1]), ("sizes", [0])] ++ [("sizes", [1, 0])] := by decide +kernel
  obtain ⟨before, last, hx, hbefore, hlast⟩ := List.map_eq_append_iff.mp hruns
  obtain ⟨e, rfl, he⟩ := List.map_eq_singleton_iff.mp hlast
  obtain ⟨made, hmade, b, call, m, hran, -, hoccurs, -, -, hown⟩ :=
    expand_executions relaying {} 100 twoCalls hx
  have hnames : before.map (·.name) = ["relay", "sizes"] := by
    have h := congrArg (List.map Prod.fst) hbefore
    rwa [List.map_map] at h
  exact ⟨before, e, hx, hnames, congrArg Prod.snd he, made, hmade, b, call, m, hran, hoccurs,
    hown callsChildless_twoCalls producesChildless_relaying⟩

/-! ### A call below a call -/

/-- `outer` goes first and produces a call of `other`, which would go last. -/
def displacing : MacroTable :=
  (((∅ : MacroTable).insert "outer"
    { priority := 1
      run := fun _ => .ok [.macroCall { name := "other", content := some "theirs" } ∅] }).insert
    "inner" { priority := 2, run := fun i => .ok [.word (i.content.getD "")] }).insert
    "other" { priority := 3, run := fun _ => .ok [.word "other"] }

/-- A call of `inner` below one of `outer`. -/
def innerBelowOuter : Block :=
  ⟨.leaf (.macroCall { name := "outer" }),
    [.macroCall { name := "inner", content := some "mine" } ∅], ∅⟩

/-- The call that `outer` has produced stands where `inner` was called. When the turn of `inner`
comes, it is given that call, and the marker in its place bears the name of `inner`. -/
theorem expand_foreignCall :
    let x := displacing.expand 100 {} innerBelowOuter
    (∃ e ∈ x.executions, ∃ b call, e.invocation.root.get? e.invocation.path = some b ∧
      b.call? = some call ∧ e.name = "inner" ∧ e.invocation.content = some "theirs" ∧
        call.name = "other") ∧
      x.failure = none ∧
      x.tree = .macroMarker { name := "outer" } ∅
        [.macroMarker { name := "inner", content := some "theirs" } ∅ [.word "theirs"]] ∧
      ¬ ∀ (t : MacroTable) (ctx : Context) (maxSteps : Nat) (tree : Block),
        ∀ e ∈ (t.expand maxSteps ctx tree).executions, ∀ b call,
          e.invocation.root.get? e.invocation.path = some b → b.call? = some call →
            call.name = e.name := by
  intro x
  have hforeign : x.executions[1]?.map (fun e => (e.name, e.invocation.content,
      (e.invocation.root.get? e.invocation.path).bind Block.call?)) =
      some ("inner", some "theirs", some { name := "other", content := some "theirs" }) := by
    decide +kernel
  obtain ⟨e, he, hvalue⟩ := Option.map_eq_some_iff.mp hforeign
  simp only [Prod.mk.injEq, Option.bind_eq_some_iff] at hvalue
  obtain ⟨hname, hcontent, b, hb, hcall⟩ := hvalue
  have hmem : e ∈ x.executions := List.mem_of_getElem? he
  refine ⟨⟨e, hmem, b, _, hb, hcall, hname, hcontent, rfl⟩, by decide +kernel, by decide +kernel,
    fun hown => ?_⟩
  have hsame : "other" = e.name := hown displacing {} 100 innerBelowOuter e hmem b _ hb hcall
  rw [hname] at hsame
  exact absurd hsame (by decide)

end MacroTable

end DocTree
