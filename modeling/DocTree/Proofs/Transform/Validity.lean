import DocTree.Proofs.Macro.Steps
import DocTree.Proofs.Transform.Pipeline
import DocTree.Transform.Icon

/-!
# Transformations keep trees valid

A tree that events can express stays one under the built-in passes, whatever they are set to do and
wherever they stop.

**Macros.** A step of an expansion puts at most one marker in the place of a block. A marker is a
container whose events carry parameters, so it may hold the parameters of the call, and all else in
it was produced by the macro. A table that produces valid blocks (`MacroTable.ProducesValid`)
therefore keeps a tree valid in each step, and so does a run of any length.

**Icons.** A run of siblings gives way to an image without children and parameters. A leaf has no
children among which there could be one.

**Pipelines.** What each pass keeps, a run keeps, also one that a failure ends.

Main result: `Pipeline.valid_run`.
-/

namespace DocTree

/-- No macro of the table produces a block that events cannot express. -/
def MacroTable.ProducesValid (t : MacroTable) : Prop :=
  ∀ name m, t.get? name = some m →
    ∀ invocation blocks, m.run invocation = .ok blocks → ∀ b ∈ blocks, b.Valid

/-- The built-in passes: expansion of macros that produce valid blocks, and icons. -/
inductive Pass.BuiltIn : Pass → Prop
  | macros {t : MacroTable} (maxSteps : Nat) (ht : t.ProducesValid) : BuiltIn (t.pass maxSteps)
  | icons (t : IconTable) : BuiltIn t.pass

/-! ## Macros -/

theorem Block.valid_macroMarker {call : Call} {ps : StringMap} {cs : List Block} :
    (macroMarker call ps cs).Valid ↔ ∀ c ∈ cs, c.Valid := by
  rw [macroMarker, withParameters, ofContainer, valid_mk_iff]
  exact and_iff_right ⟨nofun, nofun⟩

variable {t : MacroTable} {ctx : Context} {tree : Block}

theorem MacroTable.valid_attempt (ht : t.ProducesValid) {root : Block} {next : PendingCall}
    (hroot : root.Valid) (h : (t.attempt ctx root next).result = .ok tree) : tree.Valid := by
  have hcomes := comes_attempt t ctx root next
  generalize t.attempt ctx root next = a at h hcomes
  cases hcomes with
  | passedOver =>
    obtain rfl := Except.ok.inj h
    exact hroot
  | refused => cases h
  | failed => cases h
  | replaced hfound _ hrun =>
    obtain rfl := Except.ok.inj h
    exact hroot.setAt (Block.valid_macroMarker.mpr (ht _ _ hfound.callee _ _ hrun)) hfound.block

/-- Each step keeps the tree valid, also one that fails. -/
theorem Expansion.valid_step (ht : t.ProducesValid) {x : Expansion} (hx : x.tree.Valid)
    (next : PendingCall) (others : List PendingCall) : (x.step t ctx next others).tree.Valid := by
  cases h : (t.attempt ctx x.tree next).result with
  | error e =>
    rw [step_of_error h]
    exact hx
  | ok tree =>
    rw [step_of_ok h]
    exact MacroTable.valid_attempt ht hx h

theorem MacroTable.valid_expand (ht : t.ProducesValid) (maxSteps : Nat) (htree : tree.Valid) :
    (t.expand maxSteps ctx tree).tree.Valid :=
  Expansion.run_induction (P := fun x => x.tree.Valid)
    (fun _ next others hx _ _ => Expansion.valid_step ht hx next others) maxSteps htree rfl

/-! ## Icons -/

namespace Block

variable {k : Kind} {cs : List Block} {ps : StringMap}

/-- A block with icons among its children is valid if these are; a leaf stays without children. -/
theorem valid_withIcons_mk (t : IconTable) (h : Valid ⟨k, cs, ps⟩)
    (hcs : ∀ b ∈ withIconsFrom t 0 cs, b.Valid) : (withIcons t ⟨k, cs, ps⟩).Valid := by
  obtain ⟨⟨hchildren, hparameters⟩, -⟩ := valid_mk_iff.mp h
  rw [withIcons, valid_mk_iff]
  refine ⟨⟨fun hleaf => ?_, hparameters⟩, hcs⟩
  rw [hchildren hleaf, withIconsFrom]

theorem valid_withIconsFrom (t : IconTable) {bs : List Block} (h : ∀ b ∈ bs, b.Valid) :
    ∀ covered, ∀ b ∈ withIconsFrom t covered bs, b.Valid := by
  induction bs using forestInduction with
  | nil => exact fun _ => nofun
  | cons k cs ps bs ihcs ihbs =>
    obtain ⟨hb, hbs⟩ := List.forall_mem_cons.mp h
    intro covered
    cases covered with
    | succ n =>
      rw [withIconsFrom]
      exact ihbs hbs n
    | zero =>
      rw [withIconsFrom]
      split
      · exact List.forall_mem_cons.mpr ⟨rfl, ihbs hbs _⟩
      · have hcs := ihcs (valid_mk_iff.mp hb).2 0
        exact List.forall_mem_cons.mpr ⟨valid_withIcons_mk t hb hcs, ihbs hbs 0⟩

theorem valid_withIcons (t : IconTable) (h : tree.Valid) : (tree.withIcons t).Valid := by
  obtain ⟨k, cs, ps⟩ := tree
  exact valid_withIcons_mk t h (valid_withIconsFrom t (valid_mk_iff.mp h).2 0)

end Block

/-! ## Main result -/

theorem Pass.BuiltIn.valid {p : Pass} (hp : p.BuiltIn) (htree : tree.Valid) :
    (p.run ctx tree).tree.Valid := by
  cases hp with
  | macros maxSteps ht => exact MacroTable.valid_expand ht maxSteps htree
  | icons t => exact Block.valid_withIcons t htree

namespace Pipeline

/-- A pipeline of built-in passes, added in any number and order, leaves a valid tree a valid tree,
whether the run succeeds or ends with a failure. -/
theorem valid_run {ps : List Pass} (hps : ∀ p ∈ ps, p.BuiltIn) (ctx : Context) {tree : Block}
    (htree : tree.Valid) : ((ofList ps).run ctx tree).tree.Valid :=
  runAll_induction (fun p hp _ hb => (hps p (mem_passes_ofList.mp hp)).valid hb) htree

/-! ### A run to the end and one that stops -/

/-- `smile` produces two symbols. `broken` is not safe, comes later and fails. -/
def smiling : MacroTable :=
  ((∅ : MacroTable).insert "smile"
    { restrictedSafe := true, run := fun _ => .ok [.specialSymbol ':', .specialSymbol ')'] }).insert
    "broken" { priority := 2000, run := fun _ => .error (.execution "broken") }

theorem producesValid_smiling : smiling.ProducesValid := by
  intro name m hm invocation blocks hrun
  simp only [smiling, KeyMap.get?_insert, KeyMap.get?_empty] at hm
  split at hm
  · obtain rfl := Option.some.inj hm
    cases hrun
  · split at hm
    · obtain rfl := Option.some.inj hm
      obtain rfl := Except.ok.inj hrun
      decide
    · cases hm

def smilingPasses : List Pass := [(IconTable.withExtra ∅).pass, smiling.pass 100]

def smileAndBroken : Block :=
  .paragraph [.macroCall { name := "smile" } ((∅ : StringMap).insert "size" "1"),
    .macroCall { name := "broken" } ∅]

theorem builtIn_smilingPasses : ∀ p ∈ smilingPasses, p.BuiltIn := by
  simp only [smilingPasses, List.forall_mem_cons, List.not_mem_nil, false_implies, implies_true,
    and_true]
  exact ⟨.icons _, .macros 100 producesValid_smiling⟩

/-- On a tree that is not trusted, `broken` does not run, and there is an icon in the end. -/
theorem valid_run_smiling :
    let ps := (∅ : StringMap).insert "size" "1"
    let safe := (ofList smilingPasses).run { restricted := true } smileAndBroken
    let all := (ofList smilingPasses).run {} smileAndBroken
    (∀ p ∈ smilingPasses, p.BuiltIn) ∧ smileAndBroken.Valid ∧
      (safe.tree.Valid ∧ safe.failure = none ∧
        safe.tree = .paragraph
          [.macroMarker { name := "smile" } ps [(IconRule.mk [] "emoticon_smile").image],
            .macroCall { name := "broken" } ∅]) ∧
      (all.tree.Valid ∧
        all.failure = some (.pass "macro" (.expansion "broken" (.execution "broken"))) ∧
        all.tree = .paragraph
          [.macroMarker { name := "smile" } ps [.specialSymbol ':', .specialSymbol ')'],
            .macroCall { name := "broken" } ∅]) := by
  intro ps safe all
  have hvalid : smileAndBroken.Valid := by decide
  exact ⟨builtIn_smilingPasses, hvalid,
    ⟨valid_run builtIn_smilingPasses _ hvalid, by decide +kernel, by decide +kernel⟩,
    ⟨valid_run builtIn_smilingPasses _ hvalid, by decide +kernel, by decide +kernel⟩⟩

end Pipeline

end DocTree
