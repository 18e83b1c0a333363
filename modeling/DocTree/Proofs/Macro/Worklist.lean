import DocTree.Proofs.Macro.Steps
import Mathlib.Data.List.MinMax
import Mathlib.Data.List.Nodup

/-!
# The worklist of an expansion is a rescan of the tree

Expansion remembers the calls that wait by position, over all changes of the tree, and after a step
searches only the new marker. The reference is `rescan`: it remembers nothing, but in each step
lists all candidates of the whole tree (`candidates`) and expands the least one by priority and
position (`earliest?`).

The two agree as long as no call has blocks below it. Then the position of a call that waits is
neither above nor below another one, so that a marker in the place of one call leaves all others
where they are. The invariant (`Expansion.Faithful`) says this of the state: calls are childless,
and what waits is a permutation of the candidates.

## Main results

* `MacroTable.expand_eq_rescan`: both leave the same tree and the same failure, the calls that wait
  are always the candidates of the tree, and a failure leaves the tree as the last step before it.
* `Expansion.faithful_step`: a step without a failure keeps the invariant.
-/

namespace DocTree

/-! ## Childless calls -/

/-- No call in the tree has blocks below it. -/
def Block.CallsChildless (b : Block) : Prop := b.All fun x => x.call?.isSome → x.children = []

/-- No macro produces a call with blocks below it. -/
def MacroTable.ProducesChildless (t : MacroTable) : Prop :=
  ∀ name m, t.get? name = some m →
    ∀ invocation blocks, m.run invocation = .ok blocks → ∀ b ∈ blocks, b.CallsChildless

/-! ## The reference -/

/-- A call of a tree that may be expanded. -/
structure Candidate where
  path : Path
  call : Call
  parameters : StringMap
  /-- The macro that is called. -/
  callee : Macro

namespace Candidate

/-- Candidates go by the priority of the macro, then by position. -/
def key (c : Candidate) : ℕ ×ₗ List ℕ := toLex (c.callee.priority, c.path)

/-- What the macro makes of the call, in the tree as it is. -/
def output (ctx : Context) (tree : Block) (c : Candidate) : Except MacroError (List Block) :=
  if c.call.inline && !c.callee.inlineSupported then .error .inlineNotSupported
  else c.callee.run
    { parameters := c.parameters, content := c.call.content, inline := c.call.inline, root := tree
      path := c.path, context := ctx }

/-- The tree with a marker around blocks in the place of the call. -/
def substitute (tree : Block) (c : Candidate) (blocks : List Block) : Block :=
  tree.setAt c.path (.macroMarker c.call c.parameters blocks)

end Candidate

variable (t : MacroTable) (ctx : Context)

/-- The candidate at a position. -/
def candidateAt? (tree : Block) (p : Path) : Option Candidate :=
  (tree.get? p).bind fun b => b.call?.bind fun call =>
    (t.expandable? ctx call.name).map fun callee =>
      { path := p, call, parameters := b.parameters, callee }

/-- All candidates of a tree. -/
def candidates (tree : Block) : List Candidate := tree.paths.filterMap (candidateAt? t ctx tree)

/-- The candidate that is expanded next. -/
def earliest? (tree : Block) : Option Candidate := (candidates t ctx tree).argmin Candidate.key

/-- Expand the earliest candidate of the whole tree, at most so many times, until there is none or
one fails. -/
def rescan : Nat → Block → Transformed
  | 0, tree => { tree }
  | room + 1, tree =>
    match earliest? t ctx tree with
    | none => { tree }
    | some c =>
      match c.output ctx tree with
      | .error e => { tree, failure := some (.expansion c.call.name e) }
      | .ok blocks => rescan room (c.substitute tree blocks)

variable {t : MacroTable} {ctx : Context} {tree : Block} {c : Candidate} {p : Path}

/-! ## Candidates -/

theorem candidateAt?_eq_some_iff : candidateAt? t ctx tree p = some c ↔
    c.path = p ∧ ∃ b, tree.get? p = some b ∧ b.call? = some c.call ∧
      b.parameters = c.parameters ∧ t.expandable? ctx c.call.name = some c.callee := by
  simp only [candidateAt?, Option.bind_eq_some_iff, Option.map_eq_some_iff]
  constructor
  · rintro ⟨b, hb, call, hcall, callee, hcallee, rfl⟩
    exact ⟨rfl, b, hb, hcall, rfl, hcallee⟩
  · rintro ⟨rfl, b, hb, hcall, hps, hcallee⟩
    exact ⟨b, hb, c.call, hcall, c.callee, hcallee, by rw [hps]⟩

theorem mem_candidates : c ∈ candidates t ctx tree ↔ candidateAt? t ctx tree c.path = some c := by
  rw [candidates, List.mem_filterMap]
  constructor
  · rintro ⟨p, -, hp⟩
    obtain ⟨rfl, -⟩ := candidateAt?_eq_some_iff.mp hp
    exact hp
  · intro h
    obtain ⟨-, b, hb, -⟩ := candidateAt?_eq_some_iff.mp h
    exact ⟨c.path, (Block.mem_paths tree c.path).mpr (by rw [hb]; rfl), h⟩

namespace Candidate

/-- How a candidate waits for its turn. -/
def waiting (c : Candidate) : PendingCall :=
  { path := c.path, name := c.call.name, priority := c.callee.priority }

end Candidate

/-- What waits at a position, if a candidate stands there. -/
def waitingAt? (t : MacroTable) (ctx : Context) (tree : Block) (p : Path) : Option PendingCall :=
  (candidateAt? t ctx tree p).map Candidate.waiting

theorem path_of_waitingAt? {w : PendingCall} (h : waitingAt? t ctx tree p = some w) :
    w.path = p := by
  obtain ⟨c, hc, rfl⟩ := Option.map_eq_some_iff.mp h
  exact (candidateAt?_eq_some_iff.mp hc).1

/-- The search of a subtree finds what waits at and below its position. -/
theorem pendingCalls_eq {top : Block} (h : tree.get? p = some top) :
    tree.pendingCalls t ctx p = top.paths.filterMap fun q => waitingAt? t ctx tree (p ++ q) := by
  rw [Block.pendingCalls, h]
  refine List.filterMap_congr fun q hq => ?_
  rw [waitingAt?, candidateAt?, Block.get?_append, h, Option.bind_some]
  cases top.get? q with
  | none => rfl
  | some b =>
    simp only [Option.bind_some]
    cases b.call? with
    | none => rfl
    | some call =>
      simp only [Option.bind_some, Option.map_map]
      rfl

/-- A search of a subtree finds, once each, the calls that wait at or below its position. -/
theorem mem_pendingCalls {top : Block} {w : PendingCall} (h : tree.get? p = some top) :
    w ∈ tree.pendingCalls t ctx p ↔ p <+: w.path ∧ waitingAt? t ctx tree w.path = some w := by
  rw [pendingCalls_eq h, List.mem_filterMap]
  constructor
  · rintro ⟨q, -, hq⟩
    rw [path_of_waitingAt? hq]
    exact ⟨List.prefix_append p q, hq⟩
  · rintro ⟨⟨q, hq⟩, hw⟩
    rw [← hq] at hw
    refine ⟨q, ?_, hw⟩
    obtain ⟨c, hc, -⟩ := Option.map_eq_some_iff.mp hw
    obtain ⟨-, b, hb, -⟩ := candidateAt?_eq_some_iff.mp hc
    rw [Block.get?_append, h, Option.bind_some] at hb
    rw [Block.mem_paths, hb]
    rfl

theorem nodup_pendingCalls {top : Block} (h : tree.get? p = some top) :
    (tree.pendingCalls t ctx p).Nodup := by
  rw [pendingCalls_eq h]
  refine List.Nodup.filterMap (fun q r w hq hr => ?_) (Block.nodup_paths top)
  have hpath := (path_of_waitingAt? hq).symm.trans (path_of_waitingAt? hr)
  exact List.append_cancel_left hpath

/-- At the root, the search finds all candidates. -/
theorem pendingCalls_root :
    tree.pendingCalls t ctx [] = (candidates t ctx tree).map Candidate.waiting := by
  rw [pendingCalls_eq (Block.get?_nil tree), candidates, List.map_filterMap]
  rfl

/-! ## The place of a call -/

/-- If calls are childless, no block stands below the position of a call. -/
theorem eq_of_below_call {q : Path} {b : Block} {call : Call} (htree : tree.CallsChildless)
    (hb : tree.get? p = some b) (hcall : b.call? = some call) (hq : (tree.get? q).isSome)
    (hpq : p <+: q) : q = p := by
  obtain ⟨r, rfl⟩ := hpq
  have hchildren : b.children = [] := htree p b hb (by rw [hcall]; rfl)
  cases r with
  | nil => exact List.append_nil p
  | cons i r =>
    rw [Block.get?_append, hb, Option.bind_some, Block.get?, hchildren] at hq
    cases hq

/-- If calls are childless, no block stands below the position of a candidate. -/
theorem eq_of_below {q : Path} (htree : tree.CallsChildless)
    (hc : candidateAt? t ctx tree p = some c) (hq : (tree.get? q).isSome) (hpq : p <+: q) :
    q = p := by
  obtain ⟨-, b, hb, hcall, -⟩ := candidateAt?_eq_some_iff.mp hc
  exact eq_of_below_call htree hb hcall hq hpq

/-- If calls are childless, no other call waits below the position of a candidate. -/
theorem eq_waiting_of_below {w : PendingCall} (htree : tree.CallsChildless)
    (hc : candidateAt? t ctx tree p = some c) (hw : waitingAt? t ctx tree w.path = some w)
    (hpw : p <+: w.path) : w = c.waiting := by
  obtain ⟨d, hd, -⟩ := Option.map_eq_some_iff.mp hw
  obtain ⟨-, x, hx, -⟩ := candidateAt?_eq_some_iff.mp hd
  rw [eq_of_below htree hc (by rw [hx]; rfl) hpw, waitingAt?, hc] at hw
  exact (Option.some.inj hw).symm

/-- A marker in the place of a call leaves the candidates elsewhere as they are. -/
theorem candidateAt?_setAt (new : Block) {q : Path} (h : ¬ p <+: q) :
    candidateAt? t ctx (tree.setAt p new) q = candidateAt? t ctx tree q := by
  have hlabel := Block.label_setAt new tree h
  rw [candidateAt?, candidateAt?]
  cases hx : (tree.setAt p new).get? q with
  | none =>
    rw [hx] at hlabel
    rw [Option.map_eq_none_iff.mp hlabel.symm]
  | some x =>
    rw [hx, Option.map_some] at hlabel
    obtain ⟨y, hy, hyx⟩ := Option.map_eq_some_iff.mp hlabel.symm
    rw [hy, Option.bind_some, Option.bind_some, Block.call?_eq_of_label hyx,
      Block.parameters_eq_of_label hyx]

/-- A marker in the place of a call leaves what waits elsewhere as it is. -/
theorem waitingAt?_setAt (new : Block) {q : Path} (h : ¬ p <+: q) :
    waitingAt? t ctx (tree.setAt p new) q = waitingAt? t ctx tree q := by
  rw [waitingAt?, waitingAt?, candidateAt?_setAt new h]

/-- Putting a marker around childless calls in the place of a call keeps calls childless. -/
theorem callsChildless_substitute {blocks : List Block} (htree : tree.CallsChildless)
    (hblocks : ∀ b ∈ blocks, b.CallsChildless) (hc : candidateAt? t ctx tree c.path = some c) :
    (c.substitute tree blocks).CallsChildless := by
  obtain ⟨-, b, hb, -⟩ := candidateAt?_eq_some_iff.mp hc
  refine Block.All.setAt (fun hxy hx => ?_) htree ?_ hb
  · rw [← Block.call?_eq_of_label hxy, ← Block.children_eq_nil_of_label hxy]
    exact hx
  · exact Block.all_mk_iff.mpr ⟨nofun, hblocks⟩

/-! ## One step -/

theorem get?_of_expandable? {name : String} {m : Macro} (h : t.expandable? ctx name = some m) :
    t.get? name = some m := by
  rw [MacroTable.expandable?] at h
  cases hm : t.get? name with
  | none =>
    rw [hm] at h
    cases h
  | some m' =>
    rw [hm] at h
    dsimp only at h
    split at h
    · exact h
    · cases h

/-- Expanding the call that a candidate waits as is expanding the candidate. -/
theorem attempt_waiting (hc : candidateAt? t ctx tree c.path = some c) :
    (t.attempt ctx tree c.waiting).result =
      match c.output ctx tree with
      | .error e => .error (.expansion c.call.name e)
      | .ok blocks => .ok (c.substitute tree blocks) := by
  obtain ⟨-, b, hb, hcall, hps, hcallee⟩ := candidateAt?_eq_some_iff.mp hc
  simp only [MacroTable.attempt, Candidate.waiting, hb, hcall, get?_of_expandable? hcallee, hps,
    Candidate.output]
  split
  · rfl
  · cases c.callee.run _ with
    | error e => rfl
    | ok blocks =>
      simp only [Block.edit?_const _ hb]
      rfl

theorem callsChildless_of_output {blocks : List Block} (ht : t.ProducesChildless)
    (hc : candidateAt? t ctx tree p = some c) (hout : c.output ctx tree = .ok blocks) :
    ∀ b ∈ blocks, b.CallsChildless := by
  obtain ⟨-, -, -, -, -, hcallee⟩ := candidateAt?_eq_some_iff.mp hc
  rw [Candidate.output] at hout
  split at hout
  · cases hout
  · exact ht _ _ (get?_of_expandable? hcallee) _ _ hout

/-- What an expansion keeps true: calls are childless, and the candidates of the tree wait. -/
structure Expansion.Faithful (t : MacroTable) (ctx : Context) (x : Expansion) : Prop where
  childless : x.tree.CallsChildless
  pending : x.pending.Perm ((candidates t ctx x.tree).map Candidate.waiting)

namespace Expansion

variable {x : Expansion} {others : List PendingCall}

/-- What waits is what the tree says, position by position. -/
theorem Faithful.mem_pending (hx : x.Faithful t ctx) {w : PendingCall} :
    w ∈ x.pending ↔ waitingAt? t ctx x.tree w.path = some w := by
  rw [hx.pending.mem_iff, ← pendingCalls_root, mem_pendingCalls (Block.get?_nil _)]
  exact and_iff_right List.nil_prefix

theorem Faithful.nodup (hx : x.Faithful t ctx) : x.pending.Nodup := by
  rw [hx.pending.nodup_iff, ← pendingCalls_root]
  exact nodup_pendingCalls (Block.get?_nil _)

theorem Faithful.earliest?_eq_none (hx : x.Faithful t ctx) (h : x.pending = []) :
    DocTree.earliest? t ctx x.tree = none := by
  have hperm := hx.pending
  rw [h, List.nil_perm, List.map_eq_nil_iff] at hperm
  exact List.argmin_eq_none.mpr hperm

/-- The next call in turn is the earliest candidate. -/
theorem Faithful.earliest? (hx : x.Faithful t ctx) {a : PendingCall}
    (h : PendingCall.takeNext? x.pending = some (a, others)) :
    ∃ c, earliest? t ctx x.tree = some c ∧ candidateAt? t ctx x.tree c.path = some c ∧
      c.waiting = a := by
  obtain ⟨hperm, hle⟩ := PendingCall.takeNext?_spec h
  have ha : a ∈ x.pending := hperm.subset List.mem_cons_self
  obtain ⟨d, hd, rfl⟩ := List.mem_map.mp (hx.pending.subset ha)
  cases hc : DocTree.earliest? t ctx x.tree with
  | none =>
    rw [List.argmin_eq_none.mp hc] at hd
    cases hd
  | some c =>
    have hmem : c ∈ candidates t ctx x.tree := List.argmin_mem hc
    have hcd : c.key ≤ d.key := List.le_of_mem_argmin hd hc
    have hdc : d.key ≤ c.key := hle c.waiting (hx.pending.symm.subset (List.mem_map_of_mem hmem))
    -- Two candidates with one key stand at one position.
    have hpath : c.path = d.path := (Prod.mk.inj (toLex_inj.mp (hcd.antisymm hdc))).2
    have hc' := mem_candidates.mp hmem
    have hd' := mem_candidates.mp hd
    rw [hpath, hd'] at hc'
    obtain rfl := Option.some.inj hc'
    exact ⟨d, rfl, hd', rfl⟩

/-- The others are the calls that wait neither at nor below the position of the one taken. -/
theorem Faithful.mem_others (hx : x.Faithful t ctx)
    (hperm : (c.waiting :: others).Perm x.pending)
    (hc : candidateAt? t ctx x.tree c.path = some c) {w : PendingCall} :
    w ∈ others ↔ ¬ c.path <+: w.path ∧ waitingAt? t ctx x.tree w.path = some w := by
  have hnodup : c.waiting ∉ others := (List.nodup_cons.mp (hperm.nodup_iff.mpr hx.nodup)).1
  rw [← hx.mem_pending, ← hperm.mem_iff, List.mem_cons]
  constructor
  · intro hw
    refine ⟨fun hpre => hnodup ?_, .inr hw⟩
    have hwait := hx.mem_pending.mp (hperm.subset (List.mem_cons_of_mem _ hw))
    rwa [eq_waiting_of_below hx.childless hc hwait hpre] at hw
  · rintro ⟨hpre, rfl | hw⟩
    · exact absurd (List.prefix_refl _) hpre
    · exact hw

/-- With a marker in the place of the call taken, the others and what the marker holds wait. -/
theorem Faithful.substitute (hx : x.Faithful t ctx)
    (hperm : (c.waiting :: others).Perm x.pending)
    (hc : candidateAt? t ctx x.tree c.path = some c) {blocks : List Block} {tree : Block}
    (htree : tree = c.substitute x.tree blocks) :
    (others ++ tree.pendingCalls t ctx c.path).Perm
      ((candidates t ctx tree).map Candidate.waiting) := by
  obtain ⟨-, b, hb, -⟩ := candidateAt?_eq_some_iff.mp hc
  have htop : tree.get? c.path = some (.macroMarker c.call c.parameters blocks) := by
    have h := Block.get?_setAt_append (.macroMarker c.call c.parameters blocks) [] hb
    rw [List.append_nil] at h
    rw [htree]
    exact h
  have hother : ∀ w : PendingCall, w ∈ others ↔
      ¬ c.path <+: w.path ∧ waitingAt? t ctx tree w.path = some w := by
    intro w
    rw [hx.mem_others hperm hc, htree]
    exact and_congr_right fun hpre => by rw [Candidate.substitute, waitingAt?_setAt _ hpre]
  rw [← pendingCalls_root]
  refine (List.perm_ext_iff_of_nodup ?_ (nodup_pendingCalls (Block.get?_nil tree))).mpr fun w => ?_
  · rw [List.nodup_append']
    refine ⟨(List.nodup_cons.mp (hperm.nodup_iff.mpr hx.nodup)).2, nodup_pendingCalls htop, ?_⟩
    intro w hw hw'
    exact ((hother w).mp hw).1 ((mem_pendingCalls htop).mp hw').1
  · rw [List.mem_append, hother, mem_pendingCalls htop, mem_pendingCalls (Block.get?_nil tree)]
    by_cases hpre : c.path <+: w.path <;> simp [hpre]

/-- A step without a failure keeps the invariant, and its tree is the one of the reference. -/
theorem faithful_step (ht : t.ProducesChildless) (hx : x.Faithful t ctx)
    (hperm : (c.waiting :: others).Perm x.pending)
    (hc : candidateAt? t ctx x.tree c.path = some c) {blocks : List Block}
    (hout : c.output ctx x.tree = .ok blocks) :
    (x.step t ctx c.waiting others).Faithful t ctx ∧
      (x.step t ctx c.waiting others).tree = c.substitute x.tree blocks ∧
      (x.step t ctx c.waiting others).failure = none := by
  have hblocks := callsChildless_of_output ht hc hout
  have hattempt := attempt_waiting hc
  rw [hout] at hattempt
  rw [step, hattempt]
  exact ⟨⟨callsChildless_substitute hx.childless hblocks hc, hx.substitute hperm hc rfl⟩, rfl, rfl⟩

/-- A step that fails leaves the tree alone and says which call failed. -/
theorem step_failed {e : MacroError} (hc : candidateAt? t ctx x.tree c.path = some c)
    (hout : c.output ctx x.tree = .error e) :
    (x.step t ctx c.waiting others).toTransformed =
      { tree := x.tree, failure := some (.expansion c.call.name e) } := by
  have hattempt := attempt_waiting hc
  rw [hout] at hattempt
  rw [step, hattempt]

/-! ## All steps -/

theorem faithful_ofTree (htree : tree.CallsChildless) : (ofTree t ctx tree).Faithful t ctx := by
  refine ⟨htree, ?_⟩
  rw [ofTree, pendingCalls_root]

/-- From a state that keeps the invariant, all steps together are a rescan, and they keep it unless
one fails. -/
theorem run_eq_rescan (ht : t.ProducesChildless) (room : Nat) (hx : x.Faithful t ctx)
    (hok : x.failure = none) :
    (x.run t ctx room).toTransformed = rescan t ctx room x.tree ∧
      ((x.run t ctx room).failure = none → (x.run t ctx room).Faithful t ctx) := by
  induction room generalizing x with
  | zero =>
    refine ⟨?_, fun _ => hx⟩
    rw [run, rescan, ← hok]
  | succ room ih =>
    rw [run, rescan]
    cases hnext : PendingCall.takeNext? x.pending with
    | none =>
      rw [hx.earliest?_eq_none ((PendingCall.takeNext?_eq_none_iff _).mp hnext), ← hok]
      exact ⟨rfl, fun _ => hx⟩
    | some next =>
      obtain ⟨a, others⟩ := next
      obtain ⟨c, hearliest, hc, rfl⟩ := hx.earliest? hnext
      have hperm := (PendingCall.takeNext?_spec hnext).1
      rw [hearliest]
      dsimp only
      cases hout : c.output ctx x.tree with
      | error e =>
        have hfailed : (x.step t ctx c.waiting others).toTransformed = _ := step_failed hc hout
        have hfailure := congrArg Transformed.failure hfailed
        rw [hfailure]
        exact ⟨hfailed, fun h => absurd (hfailure.symm.trans h) (Option.some_ne_none _)⟩
      | ok blocks =>
        obtain ⟨hfaithful, htree, hok'⟩ := faithful_step ht hx hperm hc hout
        dsimp only
        rw [hok', ← htree]
        exact ih hfaithful hok'

end Expansion

/-! ## Main result -/

/-- A rescan that fails stopped at the tree of fewer steps, whose earliest candidate failed. -/
theorem rescan_failed {e : TransformError} : ∀ {room : Nat} {tree : Block},
    (rescan t ctx room tree).failure = some e →
      ∃ made < room, rescan t ctx made tree = { tree := (rescan t ctx room tree).tree } ∧
        ∃ c cause, earliest? t ctx (rescan t ctx room tree).tree = some c ∧
          c.output ctx (rescan t ctx room tree).tree = .error cause ∧
          e = .expansion c.call.name cause
  | 0, _, h => by cases h
  | room + 1, tree, h => by
    rw [rescan] at h ⊢
    cases hc : earliest? t ctx tree with
    | none =>
      rw [hc] at h
      cases h
    | some c =>
      rw [hc] at h
      dsimp only at h ⊢
      cases hout : c.output ctx tree with
      | error cause =>
        rw [hout] at h
        obtain rfl := Option.some.inj h
        exact ⟨0, Nat.succ_pos room, rfl, c, cause, hc, hout, rfl⟩
      | ok blocks =>
        rw [hout] at h
        obtain ⟨made, hmade, hrun, hfirst⟩ := rescan_failed h
        refine ⟨made + 1, Nat.succ_lt_succ hmade, ?_, hfirst⟩
        rw [rescan, hc]
        dsimp only
        rw [hout]
        exact hrun

namespace MacroTable

/-- Expansion with its list of waiting calls leaves the same tree and the same failure as a search
of the whole tree in each step. As long as nothing fails, the calls that wait are the candidates of
the tree, each once. A failure is that of the earliest candidate, in the tree that the steps before
it left. -/
theorem expand_eq_rescan (t : MacroTable) (ctx : Context) (maxSteps : Nat) (tree : Block)
    (htree : tree.CallsChildless) (ht : t.ProducesChildless) :
    let x := t.expand maxSteps ctx tree
    x.toTransformed = rescan t ctx maxSteps tree ∧
      (x.failure = none → x.pending.Perm ((candidates t ctx x.tree).map Candidate.waiting)) ∧
      ∀ e, x.failure = some e →
        ∃ made < maxSteps, (t.expand made ctx tree).toTransformed = { tree := x.tree } ∧
          ∃ c cause, earliest? t ctx x.tree = some c ∧ c.output ctx x.tree = .error cause ∧
            e = .expansion c.call.name cause := by
  have hrun : ∀ room, (t.expand room ctx tree).toTransformed = rescan t ctx room tree ∧
      ((t.expand room ctx tree).failure = none → (t.expand room ctx tree).Faithful t ctx) :=
    fun room => Expansion.run_eq_rescan ht room (Expansion.faithful_ofTree htree) rfl
  intro x
  obtain ⟨heq, hfaithful⟩ := hrun maxSteps
  refine ⟨heq, fun hok => (hfaithful hok).pending, fun e he => ?_⟩
  have htransformed : rescan t ctx maxSteps tree = x.toTransformed := heq.symm
  obtain ⟨made, hmade, hbefore, hfirst⟩ :=
    rescan_failed (by rw [htransformed]; exact he)
  rw [htransformed] at hbefore hfirst
  exact ⟨made, hmade, (hrun made).1.trans hbefore, hfirst⟩

/-! ### A run in which a macro produces a call -/

/-- `relay` goes first and produces a call of `sizes`, which produces the size of the tree that it
sees. -/
def relaying : MacroTable :=
  ((∅ : MacroTable).insert "sizes" { run := fun i => .ok [.word (Nat.repr i.root.size)] }).insert
    "relay" { priority := 10, run := fun _ => .ok [.macroCall { name := "sizes" } ∅] }

theorem producesChildless_relaying : relaying.ProducesChildless := by
  intro name m hm invocation blocks hrun
  simp only [relaying, KeyMap.get?_insert, KeyMap.get?_empty] at hm
  split at hm
  · obtain rfl := Option.some.inj hm
    obtain rfl := Except.ok.inj hrun
    simp [Block.CallsChildless, Block.macroCall, Block.withParameters, Block.ofLeaf,
      Block.all_mk_iff]
  · split at hm
    · obtain rfl := Option.some.inj hm
      obtain rfl := Except.ok.inj hrun
      simp [Block.CallsChildless, Block.word, Block.ofLeaf, Block.all_mk_iff]
    · cases hm

/-- A call of each macro. -/
def twoCalls : Block :=
  .group [.macroCall { name := "sizes" } ∅, .macroCall { name := "relay" } ∅]

theorem callsChildless_twoCalls : twoCalls.CallsChildless := by
  simp [twoCalls, Block.CallsChildless, Block.group, Block.ofContainer, Block.macroCall,
    Block.withParameters, Block.ofLeaf, Block.call?, Block.all_mk_iff]

theorem expand_relaying :
    twoCalls.CallsChildless ∧ relaying.ProducesChildless ∧
      (relaying.expand 100 {} twoCalls).toTransformed = rescan relaying {} 100 twoCalls ∧
      (relaying.expand 100 {} twoCalls).tree = .group
        [.macroMarker { name := "sizes" } ∅ [.word "4"],
          .macroMarker { name := "relay" } ∅ [.macroMarker { name := "sizes" } ∅ [.word "5"]]] :=
  ⟨callsChildless_twoCalls, producesChildless_relaying,
    (expand_eq_rescan relaying {} 100 twoCalls callsChildless_twoCalls
      producesChildless_relaying).1,
    by decide +kernel⟩

end MacroTable

end DocTree
