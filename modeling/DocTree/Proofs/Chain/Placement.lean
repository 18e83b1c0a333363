import DocTree.Proofs.Chain.Isolation
import DocTree.Proofs.Chain.Stacking
import Mathlib.Data.List.Induction

/-!
# Stages at places of their kind

An event goes on to the place after the kind that a stage tells, wherever the stage stands. So each
event passes all places in order if every stage stands at a place of its kind
(`Chain.WellPlaced`), and may come back to where it was if one does not.

**Who sees to it.** A stage that is added or put over another one is refused if its kind is not that
of the place. Shadowing all stages at once takes what the active stages offer without asking for its
kind. This is the only operation that can put a stage at a place of another kind, and it does so
exactly if such a stage is on offer (`Chain.OffersOwn`).

**Stages that only forward** (`Stage.Relays`). They leave a note in the world and change nothing
else, so that the notes tell which stages an event has come to.

## Main results

* `Chain.operateAll_wellPlaced_iff`: when all stages stand at places of their kind, and that then an
  event comes to each active stage once, in order.
* `Chain.not_wellPlaced_visitors`: a stage at the place after its kind sends events in a circle.
-/

namespace DocTree

variable {κ ω : Type} [StageBehaviour κ ω]

theorem Stage.kind_asked
    (hasked : ∀ k : κ, StageBehaviour.kind (StageBehaviour.spawn k).1 = StageBehaviour.kind k)
    (s : Stage κ ω) : s.asked.kind = s.kind := by
  cases s with
  | tracker t => rfl
  | listener k l => rfl
  | custom k => exact hasked k

namespace Chain

variable {c : Chain κ ω} {p : Place κ ω}

/-! ## Operations -/

/-- What the active stages offer is of the kind of their place. -/
def OffersOwn (c : Chain κ ω) : Prop :=
  ∀ p ∈ c.places, p.top.isStackable = true → ∀ fresh, p.top.spawn.2 = some fresh →
    fresh.kind = p.kind

/-- The operations after which a further one is made. -/
theorem operateAll_concat (c : Chain κ ω) (ops : List (Operation κ ω)) (op : Operation κ ω) :
    (c.operateAll (ops ++ [op])).2 = ((c.operateAll ops).2.operate op).2 := by
  induction ops generalizing c with
  | nil => rfl
  | cons first ops ih => exact ih (c.operate first).2

namespace WellPlaced

variable (hasked : ∀ s : Stage κ ω, s.asked.kind = s.kind) (hc : c.WellPlaced)

include hasked hc

/-- Asking the active stage of a kind does not misplace it. -/
theorem setTop_asked {k : StageKind} (hp : c.place? k = some p) :
    (c.modify k fun q => { q with top := p.top.spawn.1 }).WellPlaced := by
  refine hc.modify fun q hq huniform => ⟨?_, rfl⟩
  have hkind : p.top.spawn.1.kind = q.kind := calc
    p.top.spawn.1.kind = p.top.kind := hasked p.top
    _ = p.kind := hc.uniform p (List.mem_of_find?_eq_some hp) p.top List.mem_cons_self
    _ = q.kind := (kind_of_place? hp).trans hq.symm
  exact List.forall_mem_cons.mpr ⟨hkind, (List.forall_mem_cons.mp huniform).2⟩

/-- A stage of another kind is refused, and the one that was asked for it stays in its place. -/
theorem shadow (k : StageKind) : (c.shadow k).2.WellPlaced := by
  rw [Chain.shadow, active?]
  cases hp : c.place? k with
  | none => exact hc
  | some p =>
    have hleft := setTop_asked hasked hc hp
    rw [Option.map_some]
    dsimp only
    by_cases hs : p.top.isStackable = true
    · rw [if_pos hs]
      cases p.top.spawn.2 with
      | none => exact hleft
      | some fresh =>
        dsimp only
        cases hpush : (c.modify k fun q => { q with top := p.top.spawn.1 }).push k fresh with
        | error e => exact hleft
        | ok pushed => exact hleft.push hpush
    · rw [if_neg hs]
      exact hc

theorem shadowAll_iff : c.shadowAll.WellPlaced ↔ c.OffersOwn := by
  constructor
  · intro h p hp hs fresh hfresh
    have huniform := h.uniform p.shadow (List.mem_map_of_mem hp)
    rw [Place.Uniform, Place.kind_shadow, Place.shadow_of_isStackable hs, hfresh] at huniform
    exact huniform fresh List.mem_cons_self
  · intro h
    refine hc.map fun p hp huniform => ⟨?_, p.kind_shadow⟩
    by_cases hs : p.top.isStackable = true
    · obtain ⟨htop, hbelow⟩ := List.forall_mem_cons.mp huniform
      have hleft : p.top.spawn.1.kind = p.kind := (hasked p.top).trans htop
      rw [Place.shadow_of_isStackable hs]
      cases hfresh : p.top.spawn.2 with
      | none => exact List.forall_mem_cons.mpr ⟨hleft, hbelow⟩
      | some fresh =>
        exact List.forall_mem_cons.mpr
          ⟨h p hp hs fresh hfresh, List.forall_mem_cons.mpr ⟨hleft, hbelow⟩⟩
    · rw [Place.shadow, if_neg hs]
      exact huniform

/-- Only shadowing all stages can misplace one. -/
theorem operate {op : Operation κ ω} (hop : op ≠ .shadowAll) :
    (c.operate op).2.WellPlaced := by
  cases op with
  | shadowAll => exact absurd rfl hop
  | add s =>
    rw [Chain.operate]
    cases h : c.add s with
    | error e => exact hc
    | ok c' => exact hc.add h
  | push k s =>
    rw [Chain.operate]
    cases h : c.push k s with
    | error e => exact hc
    | ok c' => exact hc.push h
  | shadow k =>
    have hleft : (c.operate (.shadow k)).2 = (c.shadow k).2 := by
      rw [Chain.operate]
      rcases c.shadow k with ⟨_ | _, c'⟩ <;> rfl
    rw [hleft]
    exact shadow hasked hc k
  | pop k =>
    have hleft : (c.operate (.pop k)).2 = c.modify k Place.dropTop := by
      rw [← pop_eq_modify hc.kinds_nodup, Chain.operate]
      rcases c.pop k with _ | ⟨_ | _, c'⟩ <;> rfl
    rw [hleft]
    exact hc.modify fun _ _ hp => hp.dropTop
  | restoreAll => exact hc.map fun _ _ hp => hp.restore

theorem operate_iff (op : Operation κ ω) :
    (c.operate op).2.WellPlaced ↔ (op = .shadowAll → c.OffersOwn) := by
  by_cases hop : op = .shadowAll
  · subst hop
    exact (shadowAll_iff hasked hc).trans ⟨fun h _ => h, fun h => h rfl⟩
  · exact iff_of_true (operate hasked hc hop) fun h => absurd h hop

/-- All stages stand at places of their kind throughout, if and only if whenever all stages are
shadowed, they offer stages of their kind. -/
theorem operateAll_iff (ops : List (Operation κ ω)) :
    (∀ done, done <+: ops → (c.operateAll done).2.WellPlaced) ↔
      ∀ done, done ++ [.shadowAll] <+: ops → (c.operateAll done).2.OffersOwn := by
  constructor
  · intro h done hdone
    have hbefore := h done ((List.prefix_append done _).trans hdone)
    have hafter := h _ hdone
    rw [operateAll_concat, operate_iff hasked hbefore] at hafter
    exact hafter rfl
  · intro h done
    induction done using List.reverseRecOn with
    | nil => exact fun _ => hc
    | append_singleton done op ih =>
      intro hdone
      have hbefore := ih ((List.prefix_append done _).trans hdone)
      rw [operateAll_concat, operate_iff hasked hbefore]
      rintro rfl
      exact h done hdone

end WellPlaced

end Chain

/-! ## Events -/

/-- The stage leaves a note and forwards, and nothing else. -/
def Stage.Relays (note : Event → Stage κ ω → ω → ω) (s : Stage κ ω) : Prop :=
  ∀ (e : Event) (c : Chain κ ω) (w : ω),
    s.arrive e c w = { stage := s, world := note e s w } ∧
      s.depart e c w = { stage := s, world := w }

namespace Chain

variable {c : Chain κ ω} {p : Place κ ω} {note : Event → Stage κ ω → ω → ω} {e : Event}

/-- The event goes on to the place after the kind that the stage tells. -/
theorem visit_relay (hc : c.kinds.Nodup) (hp : p ∈ c.places) (hr : p.top.Relays note)
    (visits : Nat) (w : ω) :
    visit e (visits + 1) (some p.kind) c w =
      (visit e visits (c.nextKind? p.top.kind) c (note e p.top w)).map
        (depart e p.kind p.topLevel p.top) := by
  rw [visit, place?_of_mem hc hp]
  dsimp only
  rw [(hr e c w).1]
  dsimp only
  rw [setAt_top hc hp, if_neg Bool.false_ne_true]

theorem depart_relay (hc : c.kinds.Nodup) (hp : p ∈ c.places) (hr : p.top.Relays note)
    (left : Stage κ ω) (o : Outcome) (w : ω) :
    depart e p.kind p.topLevel left ⟨o, c, w⟩ = ⟨o, c, w⟩ := by
  have hat : c.at? p.kind p.topLevel = some p.top := by
    rw [at?, place?_of_mem hc hp]
    exact p.at?_topLevel
  rw [depart]
  dsimp only
  rw [hat, Option.getD_some, (hr e c w).2]
  dsimp only
  rw [setAt_top hc hp, if_neg Bool.false_ne_true]

/-- A stage at the place after its kind is brought every event again and again. -/
theorem visit_circle (hc : c.kinds.Nodup) (hp : p ∈ c.places) (hr : p.top.Relays note)
    (hnext : c.nextKind? p.top.kind = some p.kind) (visits : Nat) (w : ω) :
    visit e visits (some p.kind) c w = none := by
  induction visits generalizing w with
  | zero => rfl
  | succ visits ih => rw [visit_relay hc hp hr, hnext, ih, Option.map_none]

/-- From any place on, an event comes to the active stages in order. -/
theorem visit_relays (hc : c.WellPlaced) (hr : ∀ p ∈ c.places, p.top.Relays note)
    (rest : List (Place κ ω)) : ∀ front, c.places = front ++ rest → ∀ visits w,
      rest.length ≤ visits → visit e visits (rest.map Place.kind).head? c w =
        some ⟨.ok (), c, rest.foldl (fun w p => note e p.top w) w⟩ := by
  induction rest with
  | nil =>
    intro front _ visits w _
    cases visits <;> rfl
  | cons p rest ih =>
    intro front hplaces visits w hvisits
    obtain ⟨visits, rfl⟩ := Nat.exists_eq_succ_of_ne_zero
      (Nat.ne_of_gt (Nat.lt_of_lt_of_le (Nat.succ_pos _) hvisits))
    have hp : p ∈ c.places := hplaces ▸ List.mem_append_right _ List.mem_cons_self
    have hfront : p.kind ∉ front.map Place.kind := by
      have hkinds := hc.kinds_nodup
      rw [kinds, hplaces, List.map_append] at hkinds
      exact (split_kinds hkinds).1
    have hnext : c.nextKind? p.top.kind = (rest.map Place.kind).head? := by
      rw [hc.uniform p hp p.top List.mem_cons_self, nextKind?, kinds, hplaces, List.map_append,
        List.map_cons, kindAfter_split _ hfront]
    have htail := ih (front ++ [p]) (by rw [hplaces, List.append_cons]) _ (note e p.top w)
      (Nat.le_of_succ_le_succ hvisits)
    rw [List.map_cons, List.head?_cons, visit_relay hc.kinds_nodup hp (hr p hp), hnext, htail,
      Option.map_some, depart_relay hc.kinds_nodup hp (hr p hp), List.foldl_cons]

/-! ## Main result -/

/-- **All stages stand at places of their kind throughout, if and only if** no active stage offers
one of another kind when all stages are shadowed. No other operation can misplace a stage, whatever
stages it is given or offered. While this is so, an event comes to the active stage of each place
once, in order, if these only forward. -/
theorem operateAll_wellPlaced_iff
    (hasked : ∀ k : κ, StageBehaviour.kind (StageBehaviour.spawn k).1 = StageBehaviour.kind k)
    (ops : List (Operation κ ω)) :
    ((∀ done, done <+: ops → (operateAll {} done).2.WellPlaced) ↔
      ∀ done, done ++ [.shadowAll] <+: ops → (operateAll {} done).2.OffersOwn) ∧
      let c := (operateAll {} ops).2
      c.WellPlaced → ∀ note, (∀ p ∈ c.places, p.top.Relays note) → ∀ e w,
        c.send e w = some ⟨.ok (), c, c.places.foldl (fun w p => note e p.top w) w⟩ := by
  have hempty : WellPlaced ({} : Chain κ ω) := ⟨List.nodup_nil, List.forall_mem_nil _⟩
  refine ⟨hempty.operateAll_iff (Stage.kind_asked hasked) ops, ?_⟩
  intro c hc note hr e w
  exact visit_relays hc hr c.places [] rfl c.places.length w (Nat.le_refl _)

end Chain

/-! ### Stages that offer any kind -/

/-- A stage that may offer another one, of a kind of its own choice. Its note is its kind. -/
structure Visitor where
  kind : StageKind
  offers : Option StageKind := none

instance : StageBehaviour Visitor (List StageKind) where
  kind := Visitor.kind
  arrive _ _ v w := { stage := v, world := w ++ [v.kind] }
  isStackable v := v.offers.isSome
  spawn v := (v, v.offers.map fun k => .custom { kind := k })

namespace Visitor

/-- Two stages in a row, of which the second one offers a stage of a kind, and all are shadowed. -/
def operations (offered : StageKind) : List (Operation Visitor (List StageKind)) :=
  [.add (.custom { kind := .custom "host" }),
    .add (.custom { kind := .custom "guest", offers := some offered }), .shadowAll]

/-- The chain that comes of them. -/
def chain (offered : StageKind) : Chain Visitor (List StageKind) where
  places := [⟨.custom "host", .custom { kind := .custom "host" }, []⟩,
    ⟨.custom "guest", .custom { kind := offered },
      [.custom { kind := .custom "guest", offers := some offered }]⟩]

theorem relays (offered : StageKind) :
    ∀ p ∈ (chain offered).places, p.top.Relays fun _ s w => w ++ [s.kind] := by
  intro p hp
  rcases List.mem_pair.mp hp with rfl | rfl <;> exact fun _ _ _ => ⟨rfl, rfl⟩

/-- In the operations, all stages are shadowed once, at the end. -/
theorem offersOwn_operations : ∀ done,
    done ++ [.shadowAll] <+: operations (.custom "guest") →
      (Chain.operateAll {} done).2.OffersOwn := by
  intro done hdone
  rcases done with _ | ⟨first, _ | ⟨second, _ | ⟨third, done⟩⟩⟩
  · exact nomatch (List.cons_prefix_cons.mp hdone).1
  · exact nomatch (List.cons_prefix_cons.mp (List.cons_prefix_cons.mp hdone).2).1
  · obtain ⟨rfl, htail⟩ := List.cons_prefix_cons.mp hdone
    obtain ⟨rfl, -⟩ := List.cons_prefix_cons.mp htail
    intro p hp hs fresh hfresh
    rcases List.mem_pair.mp hp with rfl | rfl
    · cases hfresh
    · obtain rfl := Option.some.inj hfresh
      rfl
  · have htail := (List.cons_prefix_cons.mp (List.cons_prefix_cons.mp hdone).2).2
    have hnil := List.prefix_nil.mp (List.cons_prefix_cons.mp htail).2
    exact absurd hnil (List.append_ne_nil_of_right_ne_nil done (List.cons_ne_nil _ _))

end Visitor

/-- The guest offers a guest, and an event comes to the host and then to the new guest. -/
theorem Chain.send_visitors :
    let c := (operateAll {} (Visitor.operations (.custom "guest"))).2
    c = Visitor.chain (.custom "guest") ∧ c.WellPlaced ∧
      ∀ e, c.send e [] = some ⟨.ok (), c, [.custom "host", .custom "guest"]⟩ := by
  intro c
  obtain ⟨hplaced, hsend⟩ :=
    operateAll_wellPlaced_iff (κ := Visitor) (fun _ => rfl) (Visitor.operations (.custom "guest"))
  have h := hplaced.mpr Visitor.offersOwn_operations _ (List.prefix_refl _)
  exact ⟨rfl, h, fun e => hsend h _ (Visitor.relays _) e []⟩

/-- The guest offers a host. Alone it is refused, but not when all stages are shadowed: then it
stands at the place of guests, and an event never gets past it. -/
theorem Chain.not_wellPlaced_visitors :
    let c := (operateAll {} (Visitor.operations (.custom "host"))).2
    (∃ p ∈ c.places, ∃ s ∈ p.top :: p.below, s.kind ≠ p.kind) ∧
      (∀ visits e w, c.sendWithin visits e w = none) ∧
      ((operateAll {} ((Visitor.operations (.custom "host")).take 2)).2.operate
          (.shadow (.custom "guest"))).1 =
        .refused (.kindMismatch (.custom "guest") (.custom "host")) := by
  intro c
  have hmisplaced : ⟨.custom "guest", .custom { kind := .custom "host" },
      [.custom { kind := .custom "guest", offers := some (.custom "host") }]⟩ ∈ c.places :=
    List.mem_cons_of_mem _ List.mem_cons_self
  refine ⟨⟨_, hmisplaced, _, List.mem_cons_self, by decide⟩, fun visits e w => ?_, rfl⟩
  have hkinds : c.kinds.Nodup := by decide
  have hrelays := Visitor.relays (.custom "host")
  cases visits with
  | zero => rfl
  | succ visits =>
    have hnext : visit e visits (some (.custom "guest")) c (w ++ [.custom "host"]) = none :=
      visit_circle hkinds hmisplaced (hrelays _ hmisplaced) rfl visits _
    exact (visit_relay hkinds List.mem_cons_self (hrelays _ List.mem_cons_self) visits w).trans
      (congrArg (Option.map _) hnext)

end DocTree
