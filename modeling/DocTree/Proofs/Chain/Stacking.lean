import DocTree.Proofs.Chain.Registry

/-!
# Building and restacking a chain

A chain holds its order and its stacks in one list of places. It answers operations as a registry
does that holds the two apart (`Chain.operate_registry`), so what holds of registries holds of
chains.

**In order** (`Chain.registry_map`). A registry goes through its kinds one by one where a chain
changes all places at once. As there is one place for each kind, the order in which the kinds are
taken does not matter.

**Undone** (`Chain.pop_modify_push`). What was put on top of a stack comes off again, and leaves the
chain as it was.

Main result: `Chain.operateAll_sound`.
-/

namespace DocTree

variable {κ ω : Type}

/-! ## The registry of a chain -/

namespace Place

/-- The stages at a place. -/
def stack (p : Place κ ω) : Stack κ ω := p.top :: p.below

theorem stack_dropTop (p : Place κ ω) : p.dropTop.stack = Stack.drop p.stack := by
  rcases p with ⟨k, top, _ | ⟨s, below⟩⟩ <;> rfl

end Place

/-- The place of a kind, told by its stack. -/
def Registry.place? (r : Registry κ ω) (k : StageKind) : Option (Place κ ω) :=
  match r.stack? k with
  | some (s :: st) => some ⟨k, s, st⟩
  | _ => none

namespace Chain

variable {c : Chain κ ω} {k : StageKind}

/-- A chain read as a registry. -/
def registry (c : Chain κ ω) : Registry κ ω where
  order := c.kinds
  stack? k := (c.place? k).map Place.stack

theorem registry_stack?_eq_none (hk : k ∉ c.kinds) : c.registry.stack? k = none := by
  have hnone : c.place? k = none := by
    rw [← Option.not_isSome_iff_eq_none, ← contains_eq_isSome, contains, List.contains_iff_mem]
    exact hk
  show (c.place? k).map Place.stack = none
  rw [hnone, Option.map_none]

/-- The places are told by the order and the stacks. -/
theorem places_eq (hc : c.kinds.Nodup) : c.places = c.kinds.filterMap c.registry.place? := by
  rw [kinds, List.filterMap_map]
  have hsome : ∀ p ∈ c.places, (c.registry.place? ∘ Place.kind) p = some p := by
    intro p hp
    have hstack : c.registry.stack? p.kind = some p.stack :=
      congrArg (Option.map Place.stack) (place?_of_mem hc hp)
    rw [Function.comp_apply, Registry.place?, hstack]
    rfl
  rw [List.filterMap_congr hsome, List.filterMap_some]

theorem eq_of_registry {c' : Chain κ ω} (hc : c.kinds.Nodup) (h : c.registry = c'.registry) :
    c = c' := by
  have hkinds : c.kinds = c'.kinds := congrArg Registry.order h
  have hplaces : c.places = c'.places := by
    rw [places_eq hc, places_eq (hkinds ▸ hc), h, hkinds]
  exact congrArg Chain.mk hplaces

/-- A change of the place of a kind is a change of its stack. -/
theorem registry_modify (c : Chain κ ω) (k : StageKind) {f : Place κ ω → Place κ ω}
    {g : Stack κ ω → Stack κ ω} (hkind : ∀ p, (f p).kind = p.kind)
    (hstack : ∀ p, (f p).stack = g p.stack) :
    (c.modify k f).registry = c.registry.adjust k g := by
  refine congrArg₂ Registry.mk ?_ (funext fun j => ?_)
  · exact c.kinds_modify fun p _ _ => hkind p
  · refine Eq.trans ?_ (Registry.stack?_adjust c.registry k j g).symm
    show ((c.modify k f).place? j).map Place.stack = ((c.place? j).map Place.stack).map _
    rw [place?_modify c k hkind, Option.map_map, Option.map_map]
    refine congrArg (Option.map · (c.place? j)) (funext fun p => ?_)
    by_cases hj : j = k
    · rw [if_pos hj, if_pos hj]
      exact hstack p
    · rw [if_neg hj, if_neg hj]
      rfl

/-- A change of all places is one of all stacks, in whatever order these are taken. -/
theorem registry_map (hc : c.kinds.Nodup) {f : Place κ ω → Place κ ω} {g : Stack κ ω → Stack κ ω}
    (hkind : ∀ p, (f p).kind = p.kind) (hstack : ∀ p, (f p).stack = g p.stack)
    {ks : List StageKind} (hks : ks.Perm c.kinds) :
    ks.foldl (fun r k => r.adjust k g) c.registry =
      Chain.registry { places := c.places.map f } := by
  rw [Registry.foldl_adjust (hks.nodup_iff.mpr hc)]
  refine congrArg₂ Registry.mk ?_ (funext fun j => ?_)
  · exact (c.kinds_map fun p _ => hkind p).symm
  · show (c.registry.stack? j).map _ = (place? { places := c.places.map f } j).map Place.stack
    rw [place?_map c.places hkind]
    by_cases hj : j ∈ ks
    · rw [if_pos hj]
      show ((c.place? j).map Place.stack).map g = ((c.place? j).map f).map Place.stack
      rw [Option.map_map, Option.map_map]
      exact congrArg (Option.map · (c.place? j)) (funext fun p => (hstack p).symm)
    · have hnone := registry_stack?_eq_none fun h => hj (hks.mem_iff.mpr h)
      have hplace : c.place? j = none := Option.map_eq_none_iff.mp hnone
      rw [hnone, Option.map_none, show place? { places := c.places } j = none from hplace]
      rfl

theorem registry_active? (c : Chain κ ω) (k : StageKind) : c.registry.active? k = c.active? k := by
  show ((c.place? k).map Place.stack).bind List.head? = (c.place? k).map Place.top
  cases c.place? k <;> rfl

theorem registry_pop (hc : c.kinds.Nodup) (k : StageKind) :
    c.registry.pop k = (c.pop k).map fun r => (r.1, r.2.registry) := by
  rw [Registry.pop, pop]
  cases hp : c.place? k with
  | none =>
    have hstack : c.registry.stack? k = none := congrArg (Option.map Place.stack) hp
    rw [hstack]
    rfl
  | some p =>
    have hstack : c.registry.stack? k = some p.stack := congrArg (Option.map Place.stack) hp
    rw [hstack]
    rcases hbelow : p with ⟨kind, top, _ | ⟨s, below⟩⟩
    · rfl
    · have hadjust : (c.modify k fun _ => ⟨kind, s, below⟩).registry =
          c.registry.adjust k List.tail := by
        rw [modify_congr (g := Place.dropTop) hc hp (by rw [hbelow]; rfl),
          registry_modify c k Place.kind_dropTop Place.stack_dropTop]
        exact Registry.adjust_congr (by rw [hstack, hbelow]; rfl)
      exact congrArg (fun r => Except.ok (some top, r)) hadjust.symm

/-- After every kind but the last there is another one, with an active stage. -/
theorem exists_next (hc : c.kinds.Nodup) (hk : k ∈ c.kinds) (hlast : c.kinds.getLast? ≠ some k) :
    ∃ j s, c.nextKind? k = some j ∧ c.active? j = some s := by
  obtain ⟨front, rest, hkinds⟩ := List.append_of_mem hk
  have hfront : k ∉ front := by
    rw [hkinds] at hc
    exact fun h => (List.nodup_append'.mp hc).2.2 h List.mem_cons_self
  cases rest with
  | nil =>
    rw [hkinds, List.getLast?_append, List.getLast?_singleton] at hlast
    exact absurd rfl hlast
  | cons j rest =>
    have hj : (c.place? j).isSome := by
      rw [← contains_eq_isSome, contains, List.contains_iff_mem, hkinds]
      exact List.mem_append_right _ (List.mem_cons_of_mem _ List.mem_cons_self)
    obtain ⟨p, hp⟩ := Option.isSome_iff_exists.mp hj
    refine ⟨j, p.top, ?_, by rw [active?, hp, Option.map_some]⟩
    rw [nextKind?, hkinds, kindAfter_split _ hfront, List.head?_cons]

end Chain

variable [StageBehaviour κ ω]

/-! ## Changes of places -/

namespace Place

theorem stack_shadow (p : Place κ ω) : p.shadow.stack = Stack.shadow p.stack := by
  rw [stack, stack, Stack.shadow]
  by_cases h : p.top.isStackable = true
  · rw [shadow_of_isStackable h, if_pos h]
    cases p.top.spawn.2 <;> rfl
  · rw [shadow, if_neg h, if_neg h]

theorem stack_restore (p : Place κ ω) : p.restore.stack = Stack.restore p.stack := by
  rw [restore_eq, Stack.restore, ← stack_dropTop]
  show _ = if p.top.isStackable = true then _ else _
  split <;> rfl

/-- The place when its active stage has been asked for another one. -/
def ask (p : Place κ ω) : Place κ ω := { p with top := p.top.asked }

end Place

namespace Chain

def operate (c : Chain κ ω) : Operation κ ω → Answer κ ω × Chain κ ω
  | .add s => Answer.ofChange c (c.add s)
  | .push k s => Answer.ofChange c (c.push k s)
  | .shadow k => Answer.ofAttempt (c.shadow k)
  | .pop k => Answer.ofPop c (c.pop k)
  | .shadowAll => (.done, c.shadowAll)
  | .restoreAll => (.done, c.restoreAll)

/-- One operation after the other, with all answers. -/
def operateAll (c : Chain κ ω) : List (Operation κ ω) → List (Answer κ ω) × Chain κ ω
  | [] => ([], c)
  | op :: ops =>
    let rest := (c.operate op).2.operateAll ops
    ((c.operate op).1 :: rest.1, rest.2)

variable {c : Chain κ ω} {k : StageKind}

/-! ## The same answers -/

theorem registry_add (c : Chain κ ω) (s : Stage κ ω) :
    c.registry.add s = (c.add s).map registry := by
  rw [Registry.add, add]
  by_cases hmem : s.kind ∈ c.kinds
  · have hcontains : c.contains s.kind = true := List.contains_iff_mem.mpr hmem
    rw [if_pos hcontains]
    exact if_pos (List.contains_iff_mem.mpr hmem)
  · have hcontains : ¬ c.contains s.kind = true := fun h => hmem (List.contains_iff_mem.mp h)
    have horder : ¬ c.registry.order.contains s.kind = true := hcontains
    rw [if_neg hcontains, if_neg horder]
    refine congrArg Except.ok (congrArg₂ Registry.mk ?_ (funext fun j => ?_))
    · have hkinds : (c.places ++ [(⟨s.kind, s, []⟩ : Place κ ω)]).map Place.kind =
          c.places.map Place.kind ++ [s.kind] := List.map_append
      exact hkinds.symm
    · show Function.update c.registry.stack? s.kind (some [s]) j =
        (place? { places := c.places ++ [⟨s.kind, s, []⟩] } j).map Place.stack
      rw [place?, List.find?_append, List.find?_singleton]
      by_cases hj : j = s.kind
      · subst hj
        have hplace : c.places.find? (fun p => p.kind = s.kind) = none :=
          Option.map_eq_none_iff.mp (registry_stack?_eq_none hmem)
        rw [Function.update_self, hplace, decide_eq_true rfl]
        rfl
      · rw [Function.update_of_ne hj, decide_eq_false (Ne.symm hj)]
        exact congrArg (Option.map Place.stack) (Option.or_none ..).symm

theorem registry_push (c : Chain κ ω) (k : StageKind) (s : Stage κ ω) :
    c.registry.push k s = (c.push k s).map registry := by
  rw [Registry.push, push, contains_eq_isSome]
  by_cases hkind : s.kind ≠ k
  · rw [if_pos hkind, if_pos hkind]
    rfl
  · rw [if_neg hkind, if_neg hkind]
    cases hp : c.place? k with
    | none =>
      have hstack : c.registry.stack? k = none := congrArg (Option.map Place.stack) hp
      rw [hstack]
      rfl
    | some p =>
      have hstack : c.registry.stack? k = some p.stack := congrArg (Option.map Place.stack) hp
      rw [hstack]
      exact congrArg Except.ok (registry_modify c k (f := (·.push s)) (g := (s :: ·))
        (fun _ => rfl) fun _ => rfl).symm

/-- The chain when the active stage of a kind has been asked for another one. -/
def ask (c : Chain κ ω) (k : StageKind) : Chain κ ω := c.modify k Place.ask

theorem registry_ask (c : Chain κ ω) (k : StageKind) :
    (c.ask k).registry = c.registry.adjust k Stack.ask :=
  registry_modify c k (fun _ => rfl) fun _ => rfl

theorem registry_shadow (hc : c.kinds.Nodup) (k : StageKind) :
    c.registry.shadow k = ((c.shadow k).1, (c.shadow k).2.registry) := by
  rw [Registry.shadow, shadow, registry_active?, active?]
  cases hp : c.place? k with
  | none => rfl
  | some p =>
    simp only [Option.map_some]
    by_cases hs : p.top.isStackable = true
    · -- Nothing but the place of the kind is changed, so the active stage can be taken from there.
      have hask : (c.modify k fun q => { q with top := p.top.spawn.1 }) = c.ask k :=
        modify_congr hc hp rfl
      simp only [if_pos hs, hask]
      cases p.top.spawn.2 with
      | none => rw [registry_ask]
      | some fresh =>
        simp only [← registry_ask, registry_push]
        cases (c.ask k).push k fresh <;> rfl
    · simp only [if_neg hs]

/-- A chain gives the same answers as its registry, and goes on as that does. -/
theorem operate_registry (hc : c.kinds.Nodup) (op : Operation κ ω) :
    c.registry.operate op = ((c.operate op).1, (c.operate op).2.registry) := by
  cases op with
  | add s =>
    rw [Registry.operate, operate, registry_add]
    cases c.add s <;> rfl
  | push k s =>
    rw [Registry.operate, operate, registry_push]
    cases c.push k s <;> rfl
  | shadow k =>
    rw [Registry.operate, operate, registry_shadow hc]
    rcases c.shadow k with ⟨_ | _, c'⟩ <;> rfl
  | pop k =>
    rw [Registry.operate, operate, registry_pop hc]
    rcases c.pop k with _ | ⟨_ | _, c'⟩ <;> rfl
  | shadowAll =>
    exact congrArg (Prod.mk _) (registry_map hc Place.kind_shadow Place.stack_shadow (.refl _))
  | restoreAll =>
    exact congrArg (Prod.mk _) (registry_map hc Place.kind_restore Place.stack_restore
      (List.reverse_perm _))

/-- What an operation does to the registry, it does to the chain. -/
theorem operate_eq {c' : Chain κ ω} {ops : List (Operation κ ω)} {op : Operation κ ω}
    {a : Answer κ ω} (hc : c.registry.Sound ops) (h : c.registry.operate op = (a, c'.registry)) :
    c.operate op = (a, c') := by
  have hstep := operate_registry hc.distinct op
  have hsound := hc.operate op
  rw [hstep] at h hsound
  obtain ⟨hanswer, hregistry⟩ := Prod.mk.inj h
  exact Prod.ext hanswer (eq_of_registry hsound.distinct hregistry)

/-- An operation that fails leaves the chain, or has asked the active stage of a kind for another
one, of which nothing came. -/
theorem eq_of_failed {ops : List (Operation κ ω)} (hc : c.registry.Sound ops) (op : Operation κ ω)
    (h : (c.operate op).1.failed = true) :
    (c.operate op).2 = c ∨ ∃ k, op = .shadow k ∧ (c.operate op).2 = c.ask k := by
  have hstep := operate_registry hc.distinct op
  have hsound := hc.operate op
  have heq : (c.registry.operate op).1.failed = true → _ := Registry.eq_of_failed
  rw [hstep] at hsound heq
  rcases heq h with hleft | ⟨k, hop, hasked⟩
  · exact .inl (eq_of_registry hsound.distinct hleft)
  · rw [← registry_ask] at hasked
    exact .inr ⟨k, hop, eq_of_registry hsound.distinct hasked⟩

theorem operateAll_registry {done : List (Operation κ ω)} (hc : c.registry.Sound done)
    (ops : List (Operation κ ω)) :
    c.registry.operateAll ops = ((c.operateAll ops).1, (c.operateAll ops).2.registry) ∧
      (c.operateAll ops).2.registry.Sound (done ++ ops) := by
  induction ops generalizing c done with
  | nil => exact ⟨rfl, by rwa [List.append_nil]⟩
  | cons op ops ih =>
    have hstep := operate_registry hc.distinct op
    have hsound := hc.operate op
    rw [hstep] at hsound
    obtain ⟨hrest, hsoundRest⟩ := ih hsound
    rw [Registry.operateAll, hstep, hrest]
    exact ⟨rfl, by rwa [List.append_cons]⟩

/-! ## Main result -/

/-- Whatever operations are made on an empty chain, with whatever stages, its order and its stacks
are those that the operations make of the two one by one. The order has no kind twice, the kinds
with a stack are those in the order, and each stack rests on the stage that was first added under
its kind, so that every kind but the last is followed by one with an active stage. Any operation
that fails now leaves the order and the stages in all stacks; it leaves all as it was, unless a
stage was asked for another one in vain. After a push that succeeds, the stage is popped again and
the chain is the one before; after a shadowing that succeeds, it is the stage that the active one
has offered, and the chain is the one before in which that was asked. -/
theorem operateAll_sound (ops : List (Operation κ ω)) :
    let c := (operateAll {} ops).2
    Registry.operateAll {} ops = ((operateAll {} ops).1, c.registry) ∧
      c.registry.Sound ops ∧
      (∀ k ∈ c.kinds, c.kinds.getLast? ≠ some k →
        ∃ j s, c.nextKind? k = some j ∧ c.active? j = some s) ∧
      (∀ op, (c.operate op).1.failed = true →
        c.registry.Unchanged (c.operate op).2.registry ∧
          ((c.operate op).2 = c ∨ ∃ k, op = .shadow k ∧ (c.operate op).2 = c.ask k)) ∧
      (∀ k s, (c.operate (.push k s)).1 = .done →
        (c.operate (.push k s)).2.operate (.pop k) = (.popped s, c)) ∧
      ∀ k, (c.operate (.shadow k)).1 = .done →
        ∃ s fresh, c.active? k = some s ∧ s.spawn.2 = some fresh ∧
          (c.operate (.shadow k)).2.active? k = some fresh ∧
          (c.operate (.shadow k)).2.operate (.pop k) = (.popped fresh, c.ask k) ∧
          c.registry.Unchanged (c.ask k).registry := by
  intro c
  obtain ⟨hanswers, hsound⟩ := operateAll_registry (c := {}) Registry.sound_empty ops
  have hstep := operate_registry (c := c) hsound.distinct
  have hnext : ∀ op, (c.operate op).2.registry.Sound (ops ++ [op]) := by
    intro op
    have h := hsound.operate op
    rwa [hstep op] at h
  refine ⟨hanswers, hsound, fun k => exists_next hsound.distinct, fun op hfailed => ?_,
    fun k s hdone => ?_, fun k hdone => ?_⟩
  · have hunchanged : (c.registry.operate op).1.failed = true →
        c.registry.Unchanged (c.registry.operate op).2 := Registry.unchanged_of_failed
    rw [hstep op] at hunchanged
    exact ⟨hunchanged hfailed, eq_of_failed hsound op hfailed⟩
  · have hpop := hsound.operate_push_pop (k := k) (s := s)
    rw [hstep (.push k s)] at hpop
    exact operate_eq (hnext _) (hpop hdone)
  · have hpop := hsound.operate_shadow_pop (k := k)
    rw [hstep (.shadow k)] at hpop
    obtain ⟨s, fresh, hactive, hspawn, htop, hpop⟩ := hpop hdone
    rw [← registry_ask] at hpop
    rw [registry_active?] at hactive htop
    refine ⟨s, fresh, hactive, hspawn, htop, operate_eq (hnext _) hpop, ?_⟩
    rw [registry_ask]
    exact Registry.unchanged_ask c.registry k

end Chain

end DocTree
