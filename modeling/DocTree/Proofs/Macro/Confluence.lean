import DocTree.Proofs.Macro.Completeness

/-!
# The order of expansion does not matter

A table gives each macro a priority, and with it the order in which calls are expanded. If what a
macro makes of a call depends on the call alone, and calls are childless, then this order matters
neither for the tree in the end nor for the number of expansions.

**Rewriting** (`Rewrites`, `Reaches`). A tree is rewritten by expanding any one of its candidates.
Priorities do not occur in this, so tables that differ in priorities only rewrite alike
(`Rewrites.of_sameButPriority`).

**Diamond** (`Rewrites.diamond`). Two candidates of a tree stand apart. Expanding one leaves the
other as it was, with the same output, so both can be expanded in either order with the same result.

**Descent** (`Reaches.of_rewrites`). If a settled tree is reached in `n` rewritings, then any first
one leaves `n - 1` to the same tree. None of them can fail (`Reaches.output_eq_ok`): a candidate
that fails is in the way for ever.

A run rewrites the tree, one step at a time (`Expansion.exists_reaches`), and where a settled tree
can be reached, it is reached by any run with enough room (`Expansion.run_of_reaches`).

## Main result

* `MacroTable.expand_eq_of_sameButPriority`: where one table leaves a settled tree, tables with
  other priorities leave the same tree, after as many expansions.
-/

namespace DocTree

/-! ## Context-free macros and priorities -/

/-- What the macro makes of a call depends on the parameters, the content and the place in the line
only. -/
def Macro.ContextFree (m : Macro) : Prop :=
  ∀ i j : Invocation, i.parameters = j.parameters → i.content = j.content → i.inline = j.inline →
    m.run i = m.run j

/-- All macros of the table are context-free. -/
def MacroTable.ContextFree (t : MacroTable) : Prop :=
  ∀ name m, t.get? name = some m → m.ContextFree

/-- The macro without its priority. -/
def Macro.unranked (m : Macro) : Macro := { m with priority := 0 }

/-- Two tables hold the same macros under the same names, but for their priorities. -/
def MacroTable.SameButPriority (t u : MacroTable) : Prop :=
  ∀ name, (t.get? name).map Macro.unranked = (u.get? name).map Macro.unranked

namespace MacroTable.SameButPriority

variable {t u : MacroTable} {ctx : Context}

theorem symm (h : SameButPriority t u) : SameButPriority u t := fun name => (h name).symm

theorem exists_priority (h : SameButPriority t u) {name : String} {m : Macro}
    (hm : t.get? name = some m) : ∃ n, u.get? name = some { m with priority := n } := by
  have heq := h name
  rw [hm, Option.map_some] at heq
  obtain ⟨m', hm', hunranked⟩ := Option.map_eq_some_iff.mp heq.symm
  refine ⟨m'.priority, hm'.trans ?_⟩
  simp only [Macro.unranked, Macro.mk.injEq, true_and] at hunranked
  obtain ⟨hinline, hsafe, hrun⟩ := hunranked
  rw [← hinline, ← hsafe, ← hrun]

theorem contextFree (h : SameButPriority t u) (ht : t.ContextFree) : u.ContextFree := by
  intro name m hm
  obtain ⟨n, hn⟩ := h.symm.exists_priority hm
  have hfree := ht name _ hn
  exact hfree

theorem producesChildless (h : SameButPriority t u) (ht : t.ProducesChildless) :
    u.ProducesChildless := by
  intro name m hm
  obtain ⟨n, hn⟩ := h.symm.exists_priority hm
  have hchildless := ht name _ hn
  exact hchildless

theorem settled (h : SameButPriority t u) {tree : Block} (htree : tree.Settled t ctx) :
    tree.Settled u ctx := by
  rintro p b hb call hcall ⟨m, hm, hsafe⟩
  obtain ⟨n, hn⟩ := h.symm.exists_priority hm
  exact htree p b hb call hcall ⟨_, hn, hsafe⟩

end MacroTable.SameButPriority

/-! ## Rewriting -/

/-- One candidate of a tree is expanded, whichever it is. -/
inductive Rewrites (t : MacroTable) (ctx : Context) (tree : Block) : Block → Prop
  | expand {c : Candidate} {blocks : List Block} (hc : candidateAt? t ctx tree c.path = some c)
      (hout : c.output ctx tree = .ok blocks) : Rewrites t ctx tree (c.substitute tree blocks)

/-- So many candidates are expanded one after the other, in any order. -/
inductive Reaches (t : MacroTable) (ctx : Context) : Nat → Block → Block → Prop
  | refl (tree : Block) : Reaches t ctx 0 tree tree
  | head {n : Nat} {a b last : Block} (hab : Rewrites t ctx a b) (hb : Reaches t ctx n b last) :
      Reaches t ctx (n + 1) a last

variable {t u : MacroTable} {ctx : Context} {tree a b last : Block} {c d : Candidate}
  {blocks : List Block} {n : Nat}

/-- Priorities do not matter for what a candidate may become. -/
theorem Rewrites.of_sameButPriority (h : t.SameButPriority u) (hab : Rewrites t ctx a b) :
    Rewrites u ctx a b := by
  cases hab with | @expand c blocks hc hout =>
  obtain ⟨-, x, hx, hcall, hps, hcallee⟩ := candidateAt?_eq_some_iff.mp hc
  obtain ⟨hget, hsafe⟩ := MacroTable.expandable?_eq_some_iff.mp hcallee
  obtain ⟨n, hn⟩ := h.exists_priority hget
  let c' : Candidate := { c with callee := { c.callee with priority := n } }
  have hc' : candidateAt? u ctx a c'.path = some c' := candidateAt?_eq_some_iff.mpr
    ⟨rfl, x, hx, hcall, hps, MacroTable.expandable?_eq_some_iff.mpr ⟨hn, hsafe⟩⟩
  exact .expand (c := c') hc' hout

theorem Reaches.of_sameButPriority (h : t.SameButPriority u) (hr : Reaches t ctx n a last) :
    Reaches u ctx n a last := by
  induction hr with
  | refl => exact .refl _
  | head hab _ ih => exact .head (hab.of_sameButPriority h) ih

/-! ## Candidates stand apart -/

/-- A context-free macro makes the same of a call in any tree. -/
theorem MacroTable.ContextFree.output_eq (ht : t.ContextFree)
    (hc : candidateAt? t ctx tree c.path = some c) (a b : Block) :
    c.output ctx a = c.output ctx b := by
  obtain ⟨-, -, -, -, -, hcallee⟩ := candidateAt?_eq_some_iff.mp hc
  rw [Candidate.output, Candidate.output, ht _ _ (get?_of_expandable? hcallee)]
  all_goals rfl

/-- If calls are childless, two candidates at different positions stand apart. -/
theorem not_prefix_of_ne (htree : tree.CallsChildless)
    (hc : candidateAt? t ctx tree c.path = some c) (hd : candidateAt? t ctx tree d.path = some d)
    (hne : c.path ≠ d.path) : ¬ c.path <+: d.path := by
  obtain ⟨-, x, hx, -⟩ := candidateAt?_eq_some_iff.mp hd
  exact fun hpre => hne (eq_of_below htree hc (by rw [hx]; rfl) hpre).symm

/-- Expanding one candidate leaves the others as they are. -/
theorem candidateAt?_substitute (htree : tree.CallsChildless)
    (hc : candidateAt? t ctx tree c.path = some c) (hd : candidateAt? t ctx tree d.path = some d)
    (hne : c.path ≠ d.path) (blocks : List Block) :
    candidateAt? t ctx (c.substitute tree blocks) d.path = some d := by
  rw [Candidate.substitute, candidateAt?_setAt _ (not_prefix_of_ne htree hc hd hne), hd]

theorem candidate_eq_of_path (hc : candidateAt? t ctx tree c.path = some c)
    (hd : candidateAt? t ctx tree d.path = some d) (hpath : c.path = d.path) : c = d := by
  rw [hpath, hd] at hc
  exact (Option.some.inj hc).symm

/-- Two ways to rewrite a tree lead to the same tree, at once or with one more rewriting each. -/
theorem Rewrites.diamond (ht : t.ContextFree) (htree : tree.CallsChildless)
    (ha : Rewrites t ctx tree a) (hb : Rewrites t ctx tree b) :
    a = b ∨ ∃ e, Rewrites t ctx a e ∧ Rewrites t ctx b e := by
  cases ha with | @expand c cs hc hcout =>
  cases hb with | @expand d ds hd hdout =>
  by_cases hpath : c.path = d.path
  · obtain rfl := candidate_eq_of_path hc hd hpath
    obtain rfl := Except.ok.inj (hcout.symm.trans hdout)
    exact .inl rfl
  · right
    have hafter : Rewrites t ctx (c.substitute tree cs) (d.substitute (c.substitute tree cs) ds) :=
      .expand (candidateAt?_substitute htree hc hd hpath cs) ((ht.output_eq hd _ _).trans hdout)
    have hbefore : Rewrites t ctx (d.substitute tree ds) (c.substitute (d.substitute tree ds) cs) :=
      .expand (candidateAt?_substitute htree hd hc (Ne.symm hpath) ds)
        ((ht.output_eq hc _ _).trans hcout)
    have hcomm : c.substitute (d.substitute tree ds) cs = d.substitute (c.substitute tree cs) ds :=
      Block.setAt_comm _ _ _ (not_prefix_of_ne htree hd hc (Ne.symm hpath))
        (not_prefix_of_ne htree hc hd hpath)
    exact ⟨_, hafter, hcomm ▸ hbefore⟩

theorem Rewrites.callsChildless (ht : t.ProducesChildless) (htree : tree.CallsChildless)
    (ha : Rewrites t ctx tree a) : a.CallsChildless := by
  obtain ⟨hc, hout⟩ := ha
  exact callsChildless_substitute htree (callsChildless_of_output ht hc hout) hc

/-! ## Descent -/

theorem not_rewrites_of_settled (h : tree.Settled t ctx) : ¬ Rewrites t ctx tree a := by
  rintro ⟨hc, -⟩
  exact nomatch (settled_iff.mp h _).symm.trans hc

/-- Any first rewriting is one of those that it takes to a settled tree. -/
theorem Reaches.of_rewrites (ht : t.ContextFree) (hp : t.ProducesChildless)
    (htree : tree.CallsChildless) (hlast : last.Settled t ctx)
    (hr : Reaches t ctx n tree last) (ha : Rewrites t ctx tree a) :
    ∃ m, n = m + 1 ∧ Reaches t ctx m a last := by
  induction hr generalizing a with
  | refl => exact absurd ha (not_rewrites_of_settled hlast)
  | @head n tree b last hb hr ih =>
    refine ⟨n, rfl, ?_⟩
    rcases ha.diamond ht htree hb with rfl | ⟨e, hae, hbe⟩
    · exact hr
    · obtain ⟨m, rfl, hm⟩ := ih (hb.callsChildless hp htree) hlast hbe
      exact .head hae hm

/-- On the way to a settled tree, no candidate fails. -/
theorem Reaches.output_eq_ok (ht : t.ContextFree) (hp : t.ProducesChildless)
    (htree : tree.CallsChildless) (hlast : last.Settled t ctx) (hr : Reaches t ctx n tree last)
    (hc : candidateAt? t ctx tree c.path = some c) : ∃ blocks, c.output ctx tree = .ok blocks := by
  induction hr with
  | refl => exact nomatch (settled_iff.mp hlast _).symm.trans hc
  | @head n tree b last hb _ ih =>
    have hchildless := hb.callsChildless hp htree
    cases hb with
    | @expand d ds hd hout =>
      by_cases hpath : d.path = c.path
      · obtain rfl := candidate_eq_of_path hd hc hpath
        exact ⟨ds, hout⟩
      · -- The candidate is still there after another one, and its output is the same.
        obtain ⟨blocks, hblocks⟩ :=
          ih hchildless hlast (candidateAt?_substitute htree hd hc hpath ds)
        exact ⟨blocks, (ht.output_eq hc _ _).trans hblocks⟩

/-! ## Runs -/

namespace Expansion

variable {x : Expansion}

/-- The expansion of a candidate is one step and one execution. -/
theorem step_counts (others : List PendingCall)
    (hc : candidateAt? t ctx x.tree c.path = some c)
    (hout : c.output ctx x.tree = .ok blocks) :
    (x.step t ctx c.waiting others).steps = x.steps + 1 ∧
      (x.step t ctx c.waiting others).executions.length = x.executions.length + 1 := by
  have hattempt := attempt_waiting hc
  rw [hout] at hattempt
  have hcomes := comes_attempt t ctx x.tree c.waiting
  rw [step_of_ok hattempt]
  refine ⟨rfl, ?_⟩
  generalize t.attempt ctx x.tree c.waiting = attempt at hattempt hcomes
  cases hcomes with
  | passedOver h =>
    obtain ⟨-, y, hy, hcall, -, hcallee⟩ := candidateAt?_eq_some_iff.mp hc
    exact absurd ⟨hy, hcall, get?_of_expandable? hcallee⟩ (h y c.call c.callee)
  | refused => cases hattempt
  | failed => cases hattempt
  | replaced => exact List.length_append

/-- A run without a failure rewrites the tree once in each step. -/
theorem exists_reaches (hp : t.ProducesChildless) (room : Nat) (hx : x.Faithful t ctx)
    (hok : (x.run t ctx room).failure = none) :
    ∃ n ≤ room, Reaches t ctx n x.tree (x.run t ctx room).tree ∧
      (x.run t ctx room).steps = x.steps + n ∧
      (x.run t ctx room).executions.length = x.executions.length + n := by
  induction room generalizing x with
  | zero => exact ⟨0, Nat.le_refl 0, .refl _, rfl, rfl⟩
  | succ room ih =>
    cases hnext : PendingCall.takeNext? x.pending with
    | none =>
      rw [run_of_takeNext?_eq_none hnext]
      exact ⟨0, Nat.zero_le _, .refl _, rfl, rfl⟩
    | some next =>
      obtain ⟨w, others⟩ := next
      obtain ⟨c, -, hc, rfl⟩ := hx.earliest? hnext
      cases hout : c.output ctx x.tree with
      | error e =>
        have hfailed : (x.step t ctx c.waiting others).failure =
            some (.expansion c.call.name e) :=
          congrArg Transformed.failure (step_failed hc hout)
        rw [run_succ_of_failed hnext hfailed] at hok
        cases hfailed.symm.trans hok
      | ok blocks =>
        obtain ⟨hfaithful, htree, hstep⟩ :=
          faithful_step hp hx (PendingCall.takeNext?_spec hnext).1 hc hout
        obtain ⟨hsteps, hexecutions⟩ := step_counts others hc hout
        rw [run_succ_of_ok hnext hstep] at hok ⊢
        obtain ⟨n, hn, hreaches, hsteps', hexecutions'⟩ := ih hfaithful hok
        rw [htree] at hreaches
        exact ⟨n + 1, Nat.succ_le_succ hn, .head (.expand hc hout) hreaches, by omega, by omega⟩

/-- A run with enough room comes to the settled tree that can be reached. -/
theorem run_of_reaches (ht : t.ContextFree) (hp : t.ProducesChildless) (hx : x.Faithful t ctx)
    (hok : x.failure = none) (hlast : last.Settled t ctx) (hr : Reaches t ctx n x.tree last)
    {room : Nat} (hroom : n ≤ room) :
    (x.run t ctx room).failure = none ∧ (x.run t ctx room).tree = last ∧
      (x.run t ctx room).steps = x.steps + n ∧
      (x.run t ctx room).executions.length = x.executions.length + n := by
  induction n generalizing x room with
  | zero =>
    cases hr with
    | refl =>
      have hpending := hx.pending
      rw [candidates_eq_nil hlast, List.map_nil] at hpending
      rw [run_of_pending_eq_nil hpending.eq_nil]
      exact ⟨hok, rfl, rfl, rfl⟩
  | succ n ih =>
    obtain ⟨room, rfl⟩ := Nat.exists_eq_add_of_le' hroom
    cases hnext : PendingCall.takeNext? x.pending with
    | none =>
      -- Nothing waits, so there is no candidate either, and no first rewriting.
      have hnone := hx.earliest?_eq_none ((PendingCall.takeNext?_eq_none_iff _).mp hnext)
      cases hr with | head hab _ =>
      obtain ⟨hc, -⟩ := hab
      have hmem := mem_candidates.mpr hc
      rw [List.argmin_eq_none.mp hnone] at hmem
      cases hmem
    | some next =>
      obtain ⟨w, others⟩ := next
      obtain ⟨c, -, hc, rfl⟩ := hx.earliest? hnext
      obtain ⟨blocks, hout⟩ := hr.output_eq_ok ht hp hx.childless hlast hc
      obtain ⟨m, hm, hreaches⟩ := hr.of_rewrites ht hp hx.childless hlast (.expand hc hout)
      obtain rfl := Nat.succ.inj hm
      obtain ⟨hfaithful, htree, hstep⟩ :=
        faithful_step hp hx (PendingCall.takeNext?_spec hnext).1 hc hout
      obtain ⟨hsteps, hexecutions⟩ := step_counts others hc hout
      rw [← htree] at hreaches
      obtain ⟨hfailure, hrun, hsteps', hexecutions'⟩ :=
        ih hfaithful hstep hreaches (Nat.le_add_left n room)
      rw [Nat.add_succ, run_succ_of_ok hnext hstep]
      exact ⟨hfailure, hrun, by omega, by omega⟩

end Expansion

/-! ## Main result -/

namespace MacroTable

/-- Two tables differ in priorities only, their macros are context-free, and calls are childless. If
one of them leaves a tree without a failure in which nothing is to be expanded, then the other one
leaves the same tree without a failure, after as many steps and executions. -/
theorem expand_eq_of_sameButPriority {t u : MacroTable} (h : t.SameButPriority u)
    (hfree : t.ContextFree) (ht : t.ProducesChildless) (ctx : Context) (maxSteps : Nat)
    {tree : Block} (htree : tree.CallsChildless)
    (hok : (t.expand maxSteps ctx tree).failure = none)
    (hsettled : (t.expand maxSteps ctx tree).tree.Settled t ctx) :
    let x := t.expand maxSteps ctx tree
    let y := u.expand maxSteps ctx tree
    y.failure = none ∧ y.tree = x.tree ∧ y.steps = x.steps ∧
      y.executions.length = x.executions.length := by
  intro x y
  obtain ⟨n, hn, hreaches, hsteps, hexecutions⟩ :=
    Expansion.exists_reaches ht maxSteps (Expansion.faithful_ofTree htree) hok
  obtain ⟨hfailure, hlast, hsteps', hexecutions'⟩ :=
    Expansion.run_of_reaches (h.contextFree hfree) (h.producesChildless ht)
      (Expansion.faithful_ofTree htree) rfl (h.settled hsettled)
      (hreaches.of_sameButPriority h) hn
  exact ⟨hfailure, hlast, hsteps'.trans hsteps.symm, hexecutions'.trans hexecutions.symm⟩

/-! ### Two orders -/

/-- Produces its content as a word. -/
def showing (priority : Nat) : Macro where
  priority
  run i := .ok [.word (i.content.getD "")]

/-- Produces two calls of `show`, one of them with its own content. -/
def doubling (priority : Nat) : Macro where
  priority
  run i := .ok [.macroCall { name := "show", content := i.content } ∅,
    .macroCall { name := "show", content := some "again" } ∅]

def showTable (double single : Nat) : MacroTable :=
  ((∅ : MacroTable).insert "show" (showing single)).insert "double" (doubling double)

variable {p q : Nat}

theorem get?_showTable {name : String} {m : Macro} (h : (showTable p q).get? name = some m) :
    m = doubling p ∨ m = showing q := by
  simp only [showTable, KeyMap.get?_insert, KeyMap.get?_empty] at h
  split at h
  · exact .inl (Option.some.inj h).symm
  · split at h
    · exact .inr (Option.some.inj h).symm
    · cases h

theorem sameButPriority_showTable (p q p' q' : Nat) :
    SameButPriority (showTable p q) (showTable p' q') := by
  intro name
  simp only [showTable, KeyMap.get?_insert, KeyMap.get?_empty]
  split
  · rfl
  · split <;> rfl

theorem contextFree_showTable (p q : Nat) : (showTable p q).ContextFree := by
  intro name m hm i j _ hcontent _
  rcases get?_showTable hm with rfl | rfl <;> simp only [doubling, showing, hcontent]

theorem producesChildless_showTable (p q : Nat) : (showTable p q).ProducesChildless := by
  intro name m hm invocation blocks hrun
  rcases get?_showTable hm with rfl | rfl <;> obtain rfl := Except.ok.inj hrun <;>
    simp [Block.CallsChildless, Block.macroCall, Block.word, Block.withParameters, Block.ofLeaf,
      Block.all_mk_iff]

/-- Calls of both macros. -/
def showAndDouble : Block :=
  .group [.macroCall { name := "show", content := some "one" } ∅,
    .macroCall { name := "double", content := some "two" } ∅]

theorem callsChildless_showAndDouble : showAndDouble.CallsChildless := by
  simp [showAndDouble, Block.CallsChildless, Block.group, Block.ofContainer, Block.macroCall,
    Block.withParameters, Block.ofLeaf, Block.call?, Block.all_mk_iff]

/-- The markers that both tables leave. -/
def showAndDoubleMarkers : Block :=
  .group [.macroMarker { name := "show", content := some "one" } ∅ [.word "one"],
    .macroMarker { name := "double", content := some "two" } ∅
      [.macroMarker { name := "show", content := some "two" } ∅ [.word "two"],
        .macroMarker { name := "show", content := some "again" } ∅ [.word "again"]]]

/-- The macros run in different orders, each of them with no step to spare. -/
theorem expand_showAndDouble :
    let x := (showTable 1 2).expand 4 {} showAndDouble
    let y := (showTable 2 1).expand 4 {} showAndDouble
    (SameButPriority (showTable 1 2) (showTable 2 1) ∧ (showTable 1 2).ContextFree ∧
      (showTable 1 2).ProducesChildless ∧ showAndDouble.CallsChildless ∧
      x.failure = none ∧ x.tree.Settled (showTable 1 2) {}) ∧
      (y.failure = none ∧ y.tree = x.tree ∧ y.steps = x.steps ∧
        y.executions.length = x.executions.length) ∧
      x.executions.map (·.name) = ["double", "show", "show", "show"] ∧
      y.executions.map (·.name) = ["show", "double", "show", "show"] := by
  intro x y
  have hok : x.failure = none := by decide +kernel
  have htree : x.tree = showAndDoubleMarkers := by decide +kernel
  have hsettled : x.tree.Settled (showTable 1 2) {} := by
    rw [htree]
    simp [showAndDoubleMarkers, Block.Settled, Block.group, Block.ofContainer, Block.macroMarker,
      Block.word, Block.withParameters, Block.ofLeaf, Block.call?, Block.all_mk_iff]
  exact ⟨⟨sameButPriority_showTable 1 2 2 1, contextFree_showTable 1 2,
      producesChildless_showTable 1 2, callsChildless_showAndDouble, hok, hsettled⟩,
    expand_eq_of_sameButPriority (sameButPriority_showTable 1 2 2 1) (contextFree_showTable 1 2)
      (producesChildless_showTable 1 2) {} 4 callsChildless_showAndDouble hok hsettled,
    by decide +kernel, by decide +kernel⟩

end MacroTable

end DocTree
