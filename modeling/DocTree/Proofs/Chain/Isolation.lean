import DocTree.Proofs.Chain.FanOut
import Mathlib.Data.List.Forall2
import Mathlib.Logic.Relation

/-!
# A nested document leaves the chain as it was

For a nested document all stackable stages are shadowed, and after it they are brought back. Nothing
keeps record of what was shadowed: both times, the active stage of each place is asked whether it is
stackable.

**The contract** (`LawfulStageBehaviour`). The stackable stages are those that offer another one,
and what they offer is of their kind and stackable too. No stage shadows others or brings them back
on its own.

**Beyond the contract** (`SteadyStageBehaviour`). The two answers of a place fit only if stages stay
stackable or not, of which the contract says nothing. Nor does it say that a stage stays as it is
when it is asked for another one, so a shadowed stage comes back as it was left then.
`Chain.actEach_unrestored` has a stage that keeps the contract for each of the two.

**The frame** (`Place.Keeps`). Events only reach active stages. Whatever is done between two points
of one nesting level, a place keeps the stages below its active one untouched, and its active one is
the same as before, though it may have done something (`Stage.Later`).

**Nesting** (`Paired`). Between shadowing and bringing back there may be any events, whether they
fail or not, and further nested documents.

**Ends** (`FixedKinds`). An event goes on to the place after the kind that a stage tells. A stage
that changes its kind may send it in circles, and then it never comes back. The frame does not
depend on this; that all events come to an end does.

## Main results

* `visit_keeps`: one event that comes to an end. `visit_ends`: when it does.
* `Place.resumes_restore`: bringing back undoes shadowing.
* `Chain.actEach_paired`: after a nested document, all stages that it has shadowed are as they were
  when they were shadowed, and all others are in their places.
-/

namespace DocTree

variable {κ ω : Type} [StageBehaviour κ ω]

/-! ## What a stage does by itself -/

namespace Stage

/-- A stage is asked or sees an event, and changes. -/
inductive Moves : Stage κ ω → Stage κ ω → Prop
  | arrive (e : Event) (c : Chain κ ω) (s : Stage κ ω) (w : ω) : Moves s (s.arrive e c w).stage
  | depart (e : Event) (c : Chain κ ω) (s : Stage κ ω) (w : ω) : Moves s (s.depart e c w).stage
  | spawn (s : Stage κ ω) : Moves s s.spawn.1

/-- The same stage at a later time. -/
abbrev Later : Stage κ ω → Stage κ ω → Prop := Relation.ReflTransGen Moves

end Stage

/-- Stages that keep the contract. -/
class LawfulStageBehaviour (κ : Type) (ω : outParam Type) [StageBehaviour κ ω] : Prop where
  /-- The stages that offer another one are the stackable ones. -/
  isSome_spawn : ∀ k : κ, (StageBehaviour.spawn k).2.isSome = StageBehaviour.isStackable k
  /-- What they offer is of their kind, and stackable too. -/
  fresh_of_spawn : ∀ (k : κ) (fresh : Stage κ ω), (StageBehaviour.spawn k).2 = some fresh →
    fresh.kind = StageBehaviour.kind k ∧ fresh.isStackable = true
  /-- No stage shadows others on its own. -/
  shadowAll_arrive : ∀ (e : Event) (c : Chain κ ω) (k : κ) (w : ω),
    (StageBehaviour.arrive e c k w).shadowAll = false
  /-- No stage brings others back on its own. -/
  restoreAll_depart : ∀ (e : Event) (c : Chain κ ω) (k : κ) (w : ω),
    (StageBehaviour.depart e c k w).restoreAll = false

/-- Stages that keep the contract and stay stackable or not, whatever they see. This is more than
the contract says. -/
class SteadyStageBehaviour (κ : Type) (ω : outParam Type) [StageBehaviour κ ω] : Prop
    extends LawfulStageBehaviour κ ω where
  isStackable_of_moves : ∀ (k : κ) (s : Stage κ ω), (Stage.custom k).Moves s →
    s.isStackable = StageBehaviour.isStackable k

/-- Stages that stay of their kind. The contract does not say this either. -/
class FixedKinds (κ : Type) (ω : outParam Type) [StageBehaviour κ ω] : Prop where
  kind_of_moves : ∀ (k : κ) (s : Stage κ ω), (Stage.custom k).Moves s →
    s.kind = StageBehaviour.kind k

/-! ## What is done to a chain -/

/-- Each shadowing of all stages is paired with the bringing back that comes after it on its
level. -/
inductive Paired : List Action → Prop
  | nil : Paired []
  | send (e : Event) {as : List Action} (h : Paired as) : Paired (.send e :: as)
  | scope {inner as : List Action} (hinner : Paired inner) (h : Paired as) :
      Paired (.restack .shadowAll :: inner ++ .restack .restoreAll :: as)

namespace Chain

/-- Do one after the other, with a bounded number of visits for each event. An event that fails is
not the end. -/
def actEach (c : Chain κ ω) (visits : Nat) (w : ω) : List Action → Option (Chain κ ω × ω)
  | [] => some (c, w)
  | .restack r :: as => (c.restack r).actEach visits w as
  | .send e :: as => (c.sendWithin visits e w).bind fun d => d.chain.actEach visits d.world as

/-- The chains that can be made: stages are added, or put over the active one of their kind, and
then it is used. -/
inductive Built : Chain κ ω → Prop
  | empty : Built {}
  | add {c c' : Chain κ ω} {s : Stage κ ω} (h : Built c) (hadd : c.add s = .ok c') : Built c'
  | push {c c' : Chain κ ω} {k : StageKind} {s : Stage κ ω} (h : Built c)
      (hpush : c.push k s = .ok c') : Built c'
  | restack {c : Chain κ ω} (h : Built c) (r : Restack) : Built (c.restack r)
  | send {c : Chain κ ω} {visits : Nat} {e : Event} {w : ω} {d : Delivered κ ω} (h : Built c)
      (hsend : c.sendWithin visits e w = some d) : Built d.chain
  | forward {c : Chain κ ω} {visits : Nat} {k : StageKind} {e : Event} {w : ω} {d : Delivered κ ω}
      (h : Built c) (hforward : c.forwardWithin visits k e w = some d) : Built d.chain

theorem actEach_append (visits : Nat) (as bs : List Action) : ∀ (c : Chain κ ω) (w : ω),
    c.actEach visits w (as ++ bs) =
      (c.actEach visits w as).bind fun r => r.1.actEach visits r.2 bs := by
  induction as with
  | nil => exact fun _ _ => rfl
  | cons a as ih =>
    intro c w
    cases a with
    | restack r => exact ih (c.restack r) w
    | send e =>
      rw [List.cons_append, actEach, actEach, Option.bind_assoc]
      exact congrArg _ (funext fun d => ih d.chain d.world)

/-- A nested document, told by what is done within. -/
theorem actEach_scope (c : Chain κ ω) (visits : Nat) (w : ω) (as : List Action) :
    c.actEach visits w (.restack .shadowAll :: as ++ [.restack .restoreAll]) =
      (c.shadowAll.actEach visits w as).map fun r => (r.1.restoreAll, r.2) := by
  rw [List.cons_append, actEach, actEach_append, Option.map_eq_bind]
  rfl

/-- Stages in a row make a chain, if their kinds are distinct. -/
theorem Built.addAll {c c' : Chain κ ω} {ss : List (Stage κ ω)} (hc : c.Built)
    (h : ss.foldlM Chain.add c = .ok c') : c'.Built := by
  induction ss generalizing c with
  | nil => exact Except.ok.inj h ▸ hc
  | cons s ss ih =>
    rw [List.foldlM_cons] at h
    cases hadd : c.add s with
    | error err => rw [hadd] at h; cases h
    | ok c₁ => rw [hadd] at h; exact ih (hc.add hadd) h

end Chain

/-! ## Single stages -/

namespace Stage

variable {s s' : Stage κ ω}

/-- Trackers and listeners stay of their kind, and stackable or not. -/
theorem Moves.eq_custom_or (h : s.Moves s') :
    (∃ k, s = custom k) ∨ s'.kind = s.kind ∧ s'.isStackable = s.isStackable := by
  cases s with
  | tracker t => exact .inr (by cases h <;> cases t <;> exact ⟨rfl, rfl⟩)
  | listener k l =>
    refine .inr ?_
    cases h with
    | arrive e c _ w =>
      rw [Stage.arrive]
      split <;> exact ⟨rfl, rfl⟩
    | depart | spawn => exact ⟨rfl, rfl⟩
  | custom k => exact .inl ⟨k, rfl⟩

theorem Moves.kind_eq [FixedKinds κ ω] (h : s.Moves s') : s'.kind = s.kind := by
  rcases h.eq_custom_or with ⟨k, rfl⟩ | hsame
  · exact FixedKinds.kind_of_moves k s' h
  · exact hsame.1

theorem Later.kind_eq [FixedKinds κ ω] (h : s.Later s') : s'.kind = s.kind := by
  induction h with
  | refl => rfl
  | tail _ hmove ih => exact hmove.kind_eq.trans ih

theorem Moves.isStackable_eq [SteadyStageBehaviour κ ω] (h : s.Moves s') :
    s'.isStackable = s.isStackable := by
  rcases h.eq_custom_or with ⟨k, rfl⟩ | hsame
  · exact SteadyStageBehaviour.isStackable_of_moves k s' h
  · exact hsame.2

theorem Later.isStackable_eq [SteadyStageBehaviour κ ω] (h : s.Later s') :
    s'.isStackable = s.isStackable := by
  induction h with
  | refl => rfl
  | tail _ hmove ih => exact hmove.isStackable_eq.trans ih

section Lawful

variable [LawfulStageBehaviour κ ω]

theorem isSome_spawn (s : Stage κ ω) : s.spawn.2.isSome = s.isStackable := by
  cases s with
  | tracker t => exact Option.isSome_map
  | listener k l => rfl
  | custom k => exact LawfulStageBehaviour.isSome_spawn k

theorem fresh_of_spawn {fresh : Stage κ ω} (h : s.spawn.2 = some fresh) :
    fresh.kind = s.kind ∧ fresh.isStackable = true := by
  cases s with
  | tracker t =>
    obtain ⟨t', ht, rfl⟩ := Option.map_eq_some_iff.mp h
    cases t <;> cases ht <;> exact ⟨rfl, rfl⟩
  | listener k l => cases h
  | custom k => exact LawfulStageBehaviour.fresh_of_spawn k fresh h

theorem shadowAll_arrive (e : Event) (c : Chain κ ω) (s : Stage κ ω) (w : ω) :
    (s.arrive e c w).shadowAll = false := by
  cases s with
  | tracker t => rfl
  | listener k l =>
    rw [arrive]
    split <;> rfl
  | custom k => exact LawfulStageBehaviour.shadowAll_arrive e c k w

theorem restoreAll_depart (e : Event) (c : Chain κ ω) (s : Stage κ ω) (w : ω) :
    (s.depart e c w).restoreAll = false := by
  cases s with
  | tracker t => rfl
  | listener k l => rfl
  | custom k => exact LawfulStageBehaviour.restoreAll_depart e c k w

end Lawful

end Stage

/-! ## Places -/

namespace Place

variable {p q r : Place κ ω}

theorem restore_of_isStackable (h : p.top.isStackable = true) : p.restore = p.dropTop := if_pos h

theorem restore_of_not_isStackable (h : p.top.isStackable = false) : p.restore = p :=
  if_neg (ne_true_of_eq_false h)

theorem shadow_of_not_isStackable (h : p.top.isStackable = false) : p.shadow = p :=
  if_neg (ne_true_of_eq_false h)

/-- All stages at a place are of its kind. -/
def Uniform (p : Place κ ω) : Prop := ∀ s ∈ p.top :: p.below, s.kind = p.kind

theorem Uniform.dropTop (hp : p.Uniform) : p.dropTop.Uniform ∧ p.dropTop.kind = p.kind := by
  rcases p with ⟨k, top, _ | ⟨s, below⟩⟩
  · exact ⟨hp, rfl⟩
  · exact ⟨fun s' hs' => hp s' (List.mem_cons_of_mem _ hs'), rfl⟩

theorem Uniform.restore (hp : p.Uniform) : p.restore.Uniform ∧ p.restore.kind = p.kind := by
  cases h : p.top.isStackable with
  | false => rw [restore_of_not_isStackable h]; exact ⟨hp, rfl⟩
  | true => rw [restore_of_isStackable h]; exact hp.dropTop

/-- The stages below the active one are untouched, and the active one is still the same. -/
structure Keeps (p q : Place κ ω) : Prop where
  kind : q.kind = p.kind
  below : q.below = p.below
  top : p.top.Later q.top

theorem Keeps.refl (p : Place κ ω) : p.Keeps p := ⟨rfl, rfl, .refl⟩

theorem Keeps.trans (hpq : p.Keeps q) (hqr : q.Keeps r) : p.Keeps r :=
  ⟨hqr.kind.trans hpq.kind, hqr.below.trans hpq.below, hpq.top.trans hqr.top⟩

/-- The active stage of a place makes a move. -/
theorem Keeps.of_moves {s : Stage κ ω} (h : p.top.Moves s) : p.Keeps { p with top := s } :=
  ⟨rfl, rfl, .single h⟩

/-- What is left of a place after a nested document. -/
structure Resumes (p q : Place κ ω) : Prop extends p.Keeps q where
  /-- A stage that was shadowed is as it was when it had been asked for another one. -/
  shadowed : p.top.isStackable = true → q.top = p.top.spawn.1
  /-- Being asked does not change a tracker. -/
  tracker : ∀ t, p.top = .tracker t → p.top.isStackable = true → q.top = .tracker t

theorem keeps_refl (ps : List (Place κ ω)) : List.Forall₂ Keeps ps ps :=
  List.forall₂_same.mpr fun p _ => .refl p

theorem keeps_trans {ps qs rs : List (Place κ ω)} (hpq : List.Forall₂ Keeps ps qs)
    (hqr : List.Forall₂ Keeps qs rs) : List.Forall₂ Keeps ps rs := by
  induction hpq generalizing rs with
  | nil => exact hqr
  | cons h _ ih =>
    cases hqr with
    | cons h' hqr => exact .cons (h.trans h') (ih hqr)

theorem map_kind_of_keeps {ps qs : List (Place κ ω)} (h : List.Forall₂ Keeps ps qs) :
    qs.map Place.kind = ps.map Place.kind := by
  induction h with
  | nil => rfl
  | cons h _ ih => rw [List.map_cons, List.map_cons, h.kind, ih]

/-- The place of a kind is kept. -/
theorem exists_find?_of_keeps {ps qs : List (Place κ ω)} (h : List.Forall₂ Keeps ps qs)
    {k : StageKind} (hp : ps.find? (fun p => p.kind = k) = some p) :
    ∃ q, qs.find? (fun q => q.kind = k) = some q ∧ p.Keeps q := by
  induction h with
  | nil => cases hp
  | @cons p' q' _ _ hkeeps _ ih =>
    rw [List.find?_cons] at hp ⊢
    rw [hkeeps.kind]
    by_cases hk : p'.kind = k
    · rw [decide_eq_true hk] at hp ⊢
      obtain rfl := Option.some.inj hp
      exact ⟨q', rfl, hkeeps⟩
    · rw [decide_eq_false hk] at hp ⊢
      exact ih hp

section Ends

variable [FixedKinds κ ω]

theorem Uniform.of_keeps (hp : p.Uniform) (h : p.Keeps q) : q.Uniform := by
  refine List.forall_mem_cons.mpr ⟨?_, fun s hs => ?_⟩
  · rw [h.top.kind_eq, h.kind]
    exact hp p.top List.mem_cons_self
  · rw [h.kind]
    exact hp s (List.mem_cons_of_mem _ (h.below ▸ hs))

theorem forall_uniform_of_keeps {ps qs : List (Place κ ω)} (h : List.Forall₂ Keeps ps qs)
    (hps : ∀ p ∈ ps, p.Uniform) : ∀ q ∈ qs, q.Uniform := by
  induction h with
  | nil => exact hps
  | cons h _ ih =>
    obtain ⟨hp, hps⟩ := List.forall_mem_cons.mp hps
    exact List.forall_mem_cons.mpr ⟨hp.of_keeps h, ih hps⟩

end Ends

/-- Shadowing a stackable stage puts another stackable one on top of it. -/
theorem exists_shadow [LawfulStageBehaviour κ ω] (h : p.top.isStackable = true) :
    ∃ fresh : Stage κ ω, fresh.kind = p.top.kind ∧ fresh.isStackable = true ∧
      p.shadow = ⟨p.kind, fresh, p.top.spawn.1 :: p.below⟩ := by
  obtain ⟨fresh, hfresh⟩ := Option.isSome_iff_exists.mp (p.top.isSome_spawn.trans h)
  obtain ⟨hkind, hstackable⟩ := Stage.fresh_of_spawn hfresh
  refine ⟨fresh, hkind, hstackable, ?_⟩
  rw [shadow_of_isStackable h, hfresh]
  rfl

theorem Uniform.shadow [LawfulStageBehaviour κ ω] [FixedKinds κ ω] (hp : p.Uniform) :
    p.shadow.Uniform ∧ p.shadow.kind = p.kind := by
  refine ⟨?_, p.kind_shadow⟩
  cases h : p.top.isStackable with
  | false => rwa [shadow_of_not_isStackable h]
  | true =>
    obtain ⟨fresh, hkind, -, hshadow⟩ := exists_shadow h
    obtain ⟨htop, hbelow⟩ := List.forall_mem_cons.mp hp
    have hasked : p.top.spawn.1.kind = p.top.kind := (Stage.Moves.spawn p.top).kind_eq
    rw [hshadow]
    exact List.forall_mem_cons.mpr ⟨hkind.trans htop, List.forall_mem_cons.mpr
      ⟨hasked.trans htop, hbelow⟩⟩

/-- Bringing back undoes shadowing, whatever happened on top in between. -/
theorem resumes_restore [SteadyStageBehaviour κ ω] (h : p.shadow.Keeps q) :
    p.Resumes q.restore := by
  cases hp : p.top.isStackable with
  | false =>
    rw [shadow_of_not_isStackable hp] at h
    rw [restore_of_not_isStackable (h.top.isStackable_eq.trans hp)]
    exact ⟨h, by simp [hp], by simp [hp]⟩
  | true =>
    obtain ⟨fresh, -, hfresh, hshadow⟩ := exists_shadow hp
    rw [hshadow] at h
    have hq : q = ⟨p.kind, q.top, p.top.spawn.1 :: p.below⟩ := by
      rcases q with ⟨k, top, below⟩
      obtain ⟨rfl, rfl, -⟩ := h
      rfl
    rw [restore_of_isStackable (h.top.isStackable_eq.trans hfresh), hq]
    refine ⟨Keeps.of_moves (.spawn p.top), fun _ => rfl, fun t ht _ => ?_⟩
    rw [dropTop, pop?, ht]
    rfl

end Place

/-! ## Chains -/

namespace Chain

variable {c c' : Chain κ ω} {k : StageKind} {e : Event}

/-! ### Kinds -/

theorem kinds_push {s : Stage κ ω} (h : c.push k s = .ok c') : c'.kinds = c.kinds := by
  rw [Chain.push] at h
  split at h
  · cases h
  · split at h
    · obtain rfl := Except.ok.inj h
      exact c.kinds_modify fun _ _ _ => rfl
    · cases h

theorem kinds_shadow (c : Chain κ ω) (k : StageKind) : (c.shadow k).2.kinds = c.kinds := by
  have hasked : ∀ s, (c.modify k fun p => { p with top := s }).kinds = c.kinds :=
    fun _ => c.kinds_modify fun _ _ _ => rfl
  rw [shadow]
  cases c.active? k with
  | none => rfl
  | some s =>
    dsimp only
    by_cases hs : s.isStackable = true
    · rw [if_pos hs]
      cases s.spawn.2 with
      | none => exact hasked _
      | some fresh =>
        dsimp only
        cases hpush : (c.modify k fun p => { p with top := s.spawn.1 }).push k fresh with
        | error err => exact hasked _
        | ok pushed => exact (kinds_push hpush).trans (hasked _)
    · rw [if_neg hs]

/-- No change of places changes their kinds. -/
theorem kinds_restack (hc : c.kinds.Nodup) (r : Restack) : (c.restack r).kinds = c.kinds := by
  cases r with
  | shadow k => exact c.kinds_shadow k
  | pop k =>
    have hpop : c.restack (.pop k) = c.modify k Place.dropTop := pop_eq_modify hc
    rw [hpop]
    exact c.kinds_modify fun p _ _ => p.kind_dropTop
  | shadowAll => exact c.kinds_map fun p _ => p.kind_shadow
  | restoreAll => exact c.kinds_map fun p _ => p.kind_restore

theorem nodup_restack (hc : c.kinds.Nodup) (r : Restack) : (c.restack r).kinds.Nodup :=
  (kinds_restack hc r).symm ▸ hc

theorem nodup_of_keeps (hc : c.kinds.Nodup) (h : List.Forall₂ Place.Keeps c.places c'.places) :
    c'.kinds.Nodup := by
  rwa [kinds, Place.map_kind_of_keeps h]

theorem nodup_add (hc : c.kinds.Nodup) {s : Stage κ ω} (h : c.add s = .ok c') :
    c'.kinds.Nodup := by
  obtain ⟨hkinds, rfl⟩ := (foldlM_add_eq_ok_iff [s] hc).mp (by simpa using h)
  rwa [kinds, List.map_append]

/-! ### One event -/

theorem setAt_keeps (hc : c.kinds.Nodup) {p : Place κ ω} (hp : c.place? k = some p)
    {s : Stage κ ω} (h : p.top.Moves s) :
    List.Forall₂ Place.Keeps c.places (c.setAt k p.topLevel s).places := by
  refine List.forall₂_map_right_iff.mpr (List.forall₂_same.mpr fun q hq => ?_)
  split
  · rename_i hk
    dsimp only
    rw [eq_of_place? hc hp hq hk, Place.setAt_topLevel]
    exact .of_moves h
  · exact .refl q

theorem keeps_of_ended {o : Outcome} {w : ω} {d : Delivered κ ω} (h : some ⟨o, c, w⟩ = some d) :
    List.Forall₂ Place.Keeps c.places d.chain.places := by
  obtain rfl := Option.some.inj h
  exact Place.keeps_refl _

section Lawful

variable [LawfulStageBehaviour κ ω]

/-- When an event has gone on, only the stage that sees this changes. -/
theorem depart_keeps {d : Delivered κ ω} (hd : d.chain.kinds.Nodup) {p : Place κ ω}
    (hp : d.chain.place? k = some p) (left : Stage κ ω) :
    List.Forall₂ Place.Keeps d.chain.places (depart e k p.topLevel left d).chain.places := by
  have hat : d.chain.at? k p.topLevel = some p.top := by
    rw [at?, hp]
    exact p.at?_topLevel
  rw [depart]
  dsimp only
  rw [hat, Option.getD_some, Stage.restoreAll_depart, if_neg Bool.false_ne_true]
  exact setAt_keeps hd hp (.depart e _ p.top d.world)

/-- An event that comes to an end leaves all places as they were, but for what the active stages
that it reaches do. -/
theorem visit_keeps {visits : Nat} {at? : Option StageKind} {w : ω} {d : Delivered κ ω}
    (hc : c.kinds.Nodup) (h : visit e visits at? c w = some d) :
    List.Forall₂ Place.Keeps c.places d.chain.places := by
  induction visits generalizing at? c w d with
  | zero =>
    cases at? with
    | none => exact keeps_of_ended h
    | some k => cases h
  | succ visits ih =>
    cases at? with
    | none => exact keeps_of_ended h
    | some k =>
      rw [visit] at h
      cases hp : c.place? k with
      | none =>
        rw [hp] at h
        exact keeps_of_ended h
      | some p =>
        simp only [hp, Stage.shadowAll_arrive, Bool.false_eq_true, if_false] at h
        have hcome := setAt_keeps hc hp (.arrive e c p.top w)
        generalize hc₁ : c.setAt k p.topLevel (p.top.arrive e c w).stage = c₁ at h hcome
        obtain ⟨d', hd', rfl⟩ := Option.map_eq_some_iff.mp h
        have hc₁ : c₁.kinds.Nodup := nodup_of_keeps hc hcome
        have honward : List.Forall₂ Place.Keeps c₁.places d'.chain.places := by
          split at hd'
          · exact ih hc₁ hd'
          · exact keeps_of_ended hd'
          · exact keeps_of_ended hd'
        have hkeeps := Place.keeps_trans hcome honward
        obtain ⟨q, hq, hpq⟩ := Place.exists_find?_of_keeps hkeeps hp
        have hlevel : p.topLevel = q.topLevel := congrArg List.length hpq.below.symm
        rw [hlevel]
        exact Place.keeps_trans hkeeps (depart_keeps (nodup_of_keeps hc hkeeps) hq _)

end Lawful

/-! ### Places of stages -/

/-- There is one place for each kind, and all stages stand at the place of their kind. -/
structure WellPlaced (c : Chain κ ω) : Prop where
  kinds_nodup : c.kinds.Nodup
  uniform : ∀ p ∈ c.places, p.Uniform

namespace WellPlaced

/-- A change of places that keeps their kinds. -/
theorem map (hc : c.WellPlaced) {f : Place κ ω → Place κ ω}
    (hf : ∀ p ∈ c.places, p.Uniform → (f p).Uniform ∧ (f p).kind = p.kind) :
    WellPlaced { places := c.places.map f } := by
  refine ⟨?_, List.forall_mem_map.mpr fun p hp => (hf p hp (hc.uniform p hp)).1⟩
  rw [kinds_map c fun p hp => (hf p hp (hc.uniform p hp)).2]
  exact hc.kinds_nodup

theorem modify (hc : c.WellPlaced) {k : StageKind} {f : Place κ ω → Place κ ω}
    (hf : ∀ p, p.kind = k → p.Uniform → (f p).Uniform ∧ (f p).kind = p.kind) :
    (c.modify k f).WellPlaced := by
  refine hc.map fun p _ hp => ?_
  split
  · exact hf p ‹_› hp
  · exact ⟨hp, rfl⟩

theorem add (hc : c.WellPlaced) {s : Stage κ ω} (h : c.add s = .ok c') : c'.WellPlaced := by
  refine ⟨nodup_add hc.kinds_nodup h, ?_⟩
  obtain ⟨-, rfl⟩ := (foldlM_add_eq_ok_iff [s] hc.kinds_nodup).mp (by simpa using h)
  refine List.forall_mem_append.mpr ⟨hc.uniform, ?_⟩
  simp [Place.Uniform]

theorem push (hc : c.WellPlaced) {k : StageKind} {s : Stage κ ω} (h : c.push k s = .ok c') :
    c'.WellPlaced := by
  rw [Chain.push] at h
  split at h
  · cases h
  · rename_i hs
    split at h
    · obtain rfl := Except.ok.inj h
      refine hc.modify fun p hp huniform => ⟨List.forall_mem_cons.mpr ⟨?_, huniform⟩, rfl⟩
      exact (not_not.mp hs).trans hp.symm
    · cases h

variable [FixedKinds κ ω]

theorem of_keeps (hc : c.WellPlaced) (h : List.Forall₂ Place.Keeps c.places c'.places) :
    c'.WellPlaced :=
  ⟨nodup_of_keeps hc.kinds_nodup h, Place.forall_uniform_of_keeps h hc.uniform⟩

variable [LawfulStageBehaviour κ ω]

theorem restack (hc : c.WellPlaced) (r : Restack) : (c.restack r).WellPlaced := by
  cases r with
  | shadow k =>
    rw [Chain.restack, shadow_eq_modify hc.kinds_nodup]
    · exact hc.modify fun _ _ hp => hp.shadow
    · intro s fresh hs hfresh
      obtain ⟨p, hp, rfl⟩ := Option.map_eq_some_iff.mp hs
      have huniform := hc.uniform p (List.mem_of_find?_eq_some hp)
      rw [(Stage.fresh_of_spawn hfresh).1, huniform p.top List.mem_cons_self]
      exact kind_of_place? hp
  | pop k =>
    have hpop : c.restack (.pop k) = c.modify k Place.dropTop := pop_eq_modify hc.kinds_nodup
    exact hpop ▸ hc.modify fun _ _ hp => hp.dropTop
  | shadowAll => exact hc.map fun _ _ hp => hp.shadow
  | restoreAll => exact hc.map fun _ _ hp => hp.restore

end WellPlaced

variable [LawfulStageBehaviour κ ω]

/-! ### Chains in use -/

theorem Built.kinds_nodup (hc : c.Built) : c.kinds.Nodup := by
  induction hc with
  | empty => exact List.nodup_nil
  | add _ hadd ih => exact nodup_add ih hadd
  | push _ hpush ih => rwa [kinds_push hpush]
  | restack _ r ih => exact nodup_restack ih r
  | send _ hsend ih => exact nodup_of_keeps ih (visit_keeps ih hsend)
  | forward _ hforward ih => exact nodup_of_keeps ih (visit_keeps ih hforward)

theorem Built.wellPlaced [FixedKinds κ ω] (hc : c.Built) : c.WellPlaced := by
  induction hc with
  | empty => exact ⟨List.nodup_nil, List.forall_mem_nil _⟩
  | add _ hadd ih => exact ih.add hadd
  | push _ hpush ih => exact ih.push hpush
  | restack _ r ih => exact ih.restack r
  | send _ hsend ih => exact ih.of_keeps (visit_keeps ih.kinds_nodup hsend)
  | forward _ hforward ih => exact ih.of_keeps (visit_keeps ih.kinds_nodup hforward)

/-! ## Ends -/

section Ends

variable [FixedKinds κ ω]

/-- From any place on, an event comes to an end if stages stay of their kind: it goes through the
places in their order. -/
theorem visit_ends (e : Event) : ∀ (rest front : List (Place κ ω)) (visits : Nat) (w : ω),
    rest.length ≤ visits → (front.map Place.kind ++ rest.map Place.kind).Nodup →
      (∀ p ∈ rest, p.Uniform) →
        ∃ d, visit e visits (rest.map Place.kind).head? { places := front ++ rest } w = some d
  | [], front, visits, w, _, _, _ => ⟨⟨.ok (), { places := front ++ [] }, w⟩, by
    cases visits <;> rfl⟩
  | p :: rest, front, visits + 1, w, hvisits, hkinds, huniform => by
    obtain ⟨hp, hrest⟩ := List.forall_mem_cons.mp huniform
    obtain ⟨hfront, hback, hnodup⟩ := split_kinds hkinds
    let c : Chain κ ω := { places := front ++ p :: rest }
    have hmove : p.top.Moves (p.top.arrive e c w).stage := .arrive e c p.top w
    have hkind : (p.top.arrive e c w).stage.kind = p.kind :=
      hmove.kind_eq.trans (hp p.top List.mem_cons_self)
    rw [List.map_cons, List.head?_cons, visit_split hfront hback rfl hkind
      (Stage.shadowAll_arrive e c p.top w)]
    dsimp only
    cases (p.top.arrive e c w).verdict with
    | forward =>
      let q : Place κ ω := { p with top := (p.top.arrive e c w).stage }
      obtain ⟨d, hd⟩ := visit_ends e rest (front ++ [q]) visits (p.top.arrive e c w).world
        (Nat.le_of_succ_le_succ hvisits) (hnodup q rfl) hrest
      rw [List.append_assoc] at hd
      exact ⟨_, congrArg (Option.map _) hd⟩
    | swallow => exact ⟨_, rfl⟩
    | fail err => exact ⟨_, rfl⟩

theorem WellPlaced.send_ends (hc : c.WellPlaced) {visits : Nat} (hvisits : c.places.length ≤ visits)
    (e : Event) (w : ω) : ∃ d, c.sendWithin visits e w = some d :=
  visit_ends e c.places [] visits w hvisits hc.kinds_nodup hc.uniform

/-- So do all events, whatever changes of places there are between them. -/
theorem WellPlaced.actEach_ends (hc : c.WellPlaced) {visits : Nat}
    (hvisits : c.places.length ≤ visits) (w : ω) (as : List Action) :
    ∃ r, c.actEach visits w as = some r := by
  induction as generalizing c w with
  | nil => exact ⟨_, rfl⟩
  | cons a as ih =>
    cases a with
    | restack r =>
      have hlength : (c.restack r).places.length = c.places.length := by
        rw [← List.length_map Place.kind, ← List.length_map Place.kind]
        exact congrArg List.length (kinds_restack hc.kinds_nodup r)
      exact ih (hc.restack r) (hlength ▸ hvisits) w
    | send e =>
      obtain ⟨d, hd⟩ := hc.send_ends hvisits e w
      have hkeeps := visit_keeps hc.kinds_nodup hd
      obtain ⟨r, hr⟩ := ih (hc.of_keeps hkeeps) (hkeeps.length_eq ▸ hvisits) d.world
      exact ⟨r, by rw [actEach, hd, Option.bind_some, hr]⟩

end Ends

/-! ## Nested documents -/

omit [LawfulStageBehaviour κ ω]

variable [SteadyStageBehaviour κ ω]

theorem restoreAll_resumes (h : List.Forall₂ Place.Keeps c.shadowAll.places c'.places) :
    List.Forall₂ Place.Resumes c.places c'.restoreAll.places :=
  List.forall₂_map_right_iff.mpr
    ((List.forall₂_map_left_iff.mp h).imp fun _ _ => Place.resumes_restore)

/-- Events and nested documents leave the places as they were, but for what the active stages do. -/
theorem actEach_keeps {as : List Action} (has : Paired as) {visits : Nat} : ∀ {c : Chain κ ω},
    c.kinds.Nodup → ∀ {w c' w'}, c.actEach visits w as = some (c', w') →
      List.Forall₂ Place.Keeps c.places c'.places := by
  induction has with
  | nil =>
    intro c _ w c' w' h
    obtain ⟨rfl, -⟩ := Prod.mk.inj (Option.some.inj h)
    exact Place.keeps_refl _
  | send e _ ih =>
    intro c hc w c' w' h
    obtain ⟨d, hd, hrun⟩ := Option.bind_eq_some_iff.mp h
    have hsend := visit_keeps hc hd
    exact Place.keeps_trans hsend (ih (nodup_of_keeps hc hsend) hrun)
  | @scope inner as _ _ ihinner ih =>
    intro c hc w c' w' h
    rw [List.append_cons, actEach_append, actEach_scope, Option.bind_map] at h
    obtain ⟨⟨c₁, w₁⟩, hinner, hrun⟩ := Option.bind_eq_some_iff.mp h
    have hwithin := ihinner (nodup_restack hc .shadowAll) hinner
    have hback : List.Forall₂ Place.Keeps c.places c₁.restoreAll.places :=
      (restoreAll_resumes hwithin).imp fun _ _ => Place.Resumes.toKeeps
    exact Place.keeps_trans hback (ih (nodup_of_keeps hc hback) hrun)

/-- **A nested document leaves the chain as it was.** All stackable stages are shadowed, then come
events, whether they fail or not, and further nested documents, and at the end the stages are
brought back. Then all places have their stages in the order of before, whatever had been shadowed
or put over others until then. A stage that was shadowed is as it was when it had been asked for
another one. The other active stages have only seen events. It does come to this if stages stay of
their kind. -/
theorem actEach_paired (hc : c.Built) {as : List Action} (has : Paired as) (visits : Nat) (w : ω) :
    (∀ c' w', c.actEach visits w (.restack .shadowAll :: as ++ [.restack .restoreAll]) =
        some (c', w') → List.Forall₂ Place.Resumes c.places c'.places) ∧
      (FixedKinds κ ω → c.places.length ≤ visits → ∃ c' w',
        c.actEach visits w (.restack .shadowAll :: as ++ [.restack .restoreAll]) =
          some (c', w')) := by
  constructor
  · intro c' w' h
    rw [actEach_scope] at h
    obtain ⟨⟨c₁, w₁⟩, hrun, hlast⟩ := Option.map_eq_some_iff.mp h
    obtain ⟨rfl, -⟩ := Prod.mk.inj hlast
    have hshadowed : c.shadowAll.kinds.Nodup := nodup_restack hc.kinds_nodup .shadowAll
    exact restoreAll_resumes (actEach_keeps has hshadowed hrun)
  · intro _ hvisits
    obtain ⟨⟨c', w'⟩, h⟩ := hc.wellPlaced.actEach_ends hvisits w
      (.restack .shadowAll :: as ++ [.restack .restoreAll])
    exact ⟨c', w', h⟩

end Chain

/-! ### A nested document in a nested document -/

/-- Counts the events that it sees and how often it was asked for another one. -/
structure Tally where
  kind : StageKind
  stackable : Bool
  seen : Nat := 0
  asked : Nat := 0

instance : StageBehaviour Tally (List EventKind) where
  kind := Tally.kind
  arrive _ _ k w := { stage := { k with seen := k.seen + 1 }, world := w }
  isStackable := Tally.stackable
  spawn k := ({ k with asked := k.asked + 1 },
    if k.stackable then some (.custom { kind := k.kind, stackable := true }) else none)

instance : SteadyStageBehaviour Tally (List EventKind) where
  isSome_spawn k := by
    cases h : k.stackable <;> simp [StageBehaviour.spawn, StageBehaviour.isStackable, h]
  fresh_of_spawn k fresh h := by
    cases hk : k.stackable with
    | false => simp [StageBehaviour.spawn, hk] at h
    | true =>
      simp only [StageBehaviour.spawn, hk, if_true, Option.some.injEq] at h
      rw [← h]
      exact ⟨rfl, rfl⟩
  shadowAll_arrive _ _ _ _ := rfl
  restoreAll_depart _ _ _ _ := rfl
  isStackable_of_moves k s h := by cases h <;> rfl

instance : FixedKinds Tally (List EventKind) where
  kind_of_moves k s h := by cases h <;> rfl

namespace Tally

/-- Two tallies, a tracker, and a listener that refuses spaces. -/
def row : List (Stage Tally (List EventKind)) :=
  [.custom { kind := .custom "words", stackable := true },
    .custom { kind := .custom "marks", stackable := true }, .tracker (.emptiness [false]),
    .listener (.custom "spaces") Chain.spaceRefuser]

/-- A tally that is not stackable was put over the first one. -/
def stages : Chain Tally (List EventKind) where
  places := [
    ⟨.custom "words", .custom { kind := .custom "words", stackable := false },
      [.custom { kind := .custom "words", stackable := true }]⟩,
    ⟨.custom "marks", .custom { kind := .custom "marks", stackable := true }, []⟩,
    ⟨.emptiness, .tracker (.emptiness [false]), []⟩,
    ⟨.custom "spaces", .listener (.custom "spaces") Chain.spaceRefuser, []⟩]

/-- A new line, then in a nested document another one and a space, and then a third one. -/
def nested : List Action :=
  [.send (.leaf (.ofBlock .newLine ∅)), .restack .shadowAll, .send (.leaf (.ofBlock .newLine ∅)),
    .send (.leaf (.ofBlock .space ∅)), .restack .restoreAll, .send (.leaf (.ofBlock .newLine ∅))]

theorem built_stages : stages.Built := by
  have hrow : row.foldlM Chain.add {} = .ok { places := row.map fun s => ⟨s.kind, s, []⟩ } :=
    (Chain.foldlM_add_eq_ok_iff row (c := {}) List.nodup_nil).mpr ⟨by decide, rfl⟩
  exact (Chain.Built.empty.addAll hrow).push (k := .custom "words")
    (s := .custom { kind := .custom "words", stackable := false }) rfl

theorem paired_nested : Paired nested := .send _ (.scope (.send _ (.send _ .nil)) (.send _ .nil))

end Tally

/-- All events have reached the tally that was not shadowed. The other one has been asked and has
seen nothing, and the tracker knows nothing of content. -/
theorem Chain.actEach_nested :
    Tally.stages.Built ∧ Paired Tally.nested ∧ ∃ c w,
      Tally.stages.actEach 4 [] (.restack .shadowAll :: Tally.nested ++ [.restack .restoreAll]) =
        some (c, w) ∧
      List.Forall₂ Place.Resumes Tally.stages.places c.places ∧
      c.active? (.custom "words") =
        some (.custom { kind := .custom "words", stackable := false, seen := 4 }) ∧
      c.active? (.custom "marks") =
        some (.custom { kind := .custom "marks", stackable := true, asked := 1 }) ∧
      c.active? .emptiness = some (.tracker (.emptiness [false])) := by
  obtain ⟨hresumes, hends⟩ := actEach_paired Tally.built_stages Tally.paired_nested 4 []
  obtain ⟨c, w, hrun⟩ := hends inferInstance (by decide)
  have hend : Tally.stages.actEach 4 []
      (.restack .shadowAll :: Tally.nested ++ [.restack .restoreAll]) = some ({ places := [
      ⟨.custom "words", .custom { kind := .custom "words", stackable := false, seen := 4 },
        [.custom { kind := .custom "words", stackable := true }]⟩,
      ⟨.custom "marks", .custom { kind := .custom "marks", stackable := true, asked := 1 }, []⟩,
      ⟨.emptiness, .tracker (.emptiness [false]), []⟩,
      ⟨.custom "spaces", .listener (.custom "spaces") spaceRefuser, []⟩] }, []) := rfl
  obtain ⟨rfl, rfl⟩ := Prod.mk.inj (Option.some.inj (hend.symm.trans hrun))
  exact ⟨Tally.built_stages, Tally.paired_nested, _, _, hrun, hresumes _ _ hrun, rfl, rfl, rfl⟩

/-! ### Lawful stages that are not brought back as they were -/

/-- Is stackable until it sees an event. -/
structure Fleeting where
  kind : StageKind
  stackable : Bool := true

instance : StageBehaviour Fleeting Unit where
  kind := Fleeting.kind
  arrive _ _ k w := { stage := { k with stackable := false }, world := w }
  isStackable := Fleeting.stackable
  spawn k := (k, if k.stackable then some (.custom { kind := k.kind }) else none)

instance : LawfulStageBehaviour Fleeting Unit where
  isSome_spawn k := by
    cases h : k.stackable <;> simp [StageBehaviour.spawn, StageBehaviour.isStackable, h]
  fresh_of_spawn k fresh h := by
    cases hk : k.stackable with
    | false => simp [StageBehaviour.spawn, hk] at h
    | true =>
      simp only [StageBehaviour.spawn, hk, if_true, Option.some.injEq] at h
      rw [← h]
      exact ⟨rfl, rfl⟩
  shadowAll_arrive _ _ _ _ := rfl
  restoreAll_depart _ _ _ _ := rfl

/-- One such stage. -/
def Fleeting.stages : Chain Fleeting Unit where
  places := [⟨.custom "words", .custom { kind := .custom "words" }, []⟩]

/-- The fresh stage that has seen an event is not stackable any more, and so it is not taken away.
A tally that was shadowed is brought back, but it has counted that it was asked. -/
theorem Chain.actEach_unrestored :
    (LawfulStageBehaviour Fleeting Unit ∧ Fleeting.stages.Built ∧ Paired [.send default] ∧ ∃ c w,
      Fleeting.stages.actEach 1 () [.restack .shadowAll, .send default, .restack .restoreAll] =
        some (c, w) ∧
      Fleeting.stages.depth (.custom "words") = 1 ∧ c.depth (.custom "words") = 2) ∧
    (LawfulStageBehaviour Tally (List EventKind) ∧ Tally.stages.Built ∧ Paired [.send default] ∧
      ∃ c w, Tally.stages.actEach 4 [] [.restack .shadowAll, .send default, .restack .restoreAll] =
        some (c, w) ∧
      Tally.stages.active? (.custom "marks") =
        some (.custom { kind := .custom "marks", stackable := true, asked := 0 }) ∧
      c.active? (.custom "marks") =
        some (.custom { kind := .custom "marks", stackable := true, asked := 1 })) := by
  have hbuilt : Fleeting.stages.Built :=
    Chain.Built.empty.add (s := .custom { kind := .custom "words" }) rfl
  exact ⟨⟨inferInstance, hbuilt, .send _ .nil, _, _, rfl, rfl, rfl⟩,
    ⟨inferInstance, Tally.built_stages, .send _ .nil, _, _, rfl, rfl, rfl⟩⟩

end DocTree
