import DocTree.Chain.Delivery
import Mathlib.Data.List.Nodup

/-!
# The places of a chain

A chain has at most one place of each kind (`foldlM_add_eq_ok_iff`). So a kind cuts the list of
places in two (`place?_split`, `nextKind?_split`), and a change of the place of a kind leaves all
other places as they are (`modify_split`, `modify_congr`).

`shadow` and `pop` are such changes (`shadow_eq_modify`, `pop_eq_modify`).
-/

namespace DocTree

variable {κ ω : Type}

namespace Place

/-- The place without its active stage; the last stage stays. -/
def dropTop (p : Place κ ω) : Place κ ω :=
  match p.pop? with
  | some (_, p') => p'
  | none => p

theorem kind_dropTop (p : Place κ ω) : p.dropTop.kind = p.kind := by
  rcases p with ⟨k, top, _ | ⟨s, below⟩⟩ <;> rfl

theorem at?_topLevel (p : Place κ ω) : p.at? p.topLevel = some p.top := if_pos rfl

theorem setAt_topLevel (p : Place κ ω) (s : Stage κ ω) :
    p.setAt p.topLevel s = { p with top := s } := if_pos rfl

end Place

namespace Chain

/-! ## The place of a kind -/

theorem place?_split {front rest : List (Place κ ω)} {p : Place κ ω}
    (h : p.kind ∉ front.map Place.kind) :
    place? { places := front ++ p :: rest } p.kind = some p := by
  have hfront : front.find? (fun q => q.kind = p.kind) = none := by
    rw [List.find?_eq_none]
    intro q hq hqp
    exact h (of_decide_eq_true hqp ▸ List.mem_map_of_mem hq)
  rw [place?, List.find?_append, hfront, Option.none_or, List.find?_cons, decide_eq_true rfl]

/-- Nothing changes where no place is of the kind. -/
theorem map_of_kind_notMem {ps : List (Place κ ω)} {k : StageKind}
    (h : k ∉ ps.map Place.kind) (f : Place κ ω → Place κ ω) :
    ps.map (fun p => if p.kind = k then f p else p) = ps := by
  refine (List.map_congr_left fun p hp => if_neg fun hpk => h ?_).trans (List.map_id ps)
  rw [← hpk]
  exact List.mem_map_of_mem hp

theorem modify_split {front rest : List (Place κ ω)} {p : Place κ ω}
    (hfront : p.kind ∉ front.map Place.kind) (hrest : p.kind ∉ rest.map Place.kind)
    (f : Place κ ω → Place κ ω) :
    modify { places := front ++ p :: rest } p.kind f = { places := front ++ f p :: rest } := by
  rw [modify, List.map_append, List.map_cons, if_pos rfl, map_of_kind_notMem hfront,
    map_of_kind_notMem hrest]

/-- The active stage of a place is found and changed at its level. -/
theorem at?_split {front rest : List (Place κ ω)} {p : Place κ ω}
    (hfront : p.kind ∉ front.map Place.kind) :
    at? { places := front ++ p :: rest } p.kind p.topLevel = some p.top := by
  rw [at?, place?_split hfront]
  exact p.at?_topLevel

theorem setAt_split {front rest : List (Place κ ω)} {p : Place κ ω}
    (hfront : p.kind ∉ front.map Place.kind) (hrest : p.kind ∉ rest.map Place.kind)
    (s : Stage κ ω) :
    setAt { places := front ++ p :: rest } p.kind p.topLevel s =
      { places := front ++ { p with top := s } :: rest } := by
  rw [setAt, modify_split hfront hrest, Place.setAt_topLevel]

/-- In a row of distinct kinds, a place is neither before nor after itself, and may count as one of
those before. -/
theorem split_kinds {front : List (Place κ ω)} {k : StageKind} {ks : List StageKind}
    (h : (front.map Place.kind ++ k :: ks).Nodup) :
    k ∉ front.map Place.kind ∧ k ∉ ks ∧
      ∀ q : Place κ ω, q.kind = k → ((front ++ [q]).map Place.kind ++ ks).Nodup := by
  obtain ⟨hk, -⟩ := List.nodup_cons.mp (List.nodup_middle.mp h)
  rw [List.mem_append, not_or] at hk
  refine ⟨hk.1, hk.2, fun q hq => ?_⟩
  rw [List.map_append, List.append_assoc, List.map_singleton, hq]
  exact h

theorem kindAfter_split {k : StageKind} {front : List StageKind} (rest : List StageKind)
    (h : k ∉ front) : kindAfter k (front ++ k :: rest) = rest.head? := by
  induction front with
  | nil => exact if_pos rfl
  | cons j front ih =>
    rw [List.mem_cons, not_or] at h
    rw [List.cons_append, kindAfter, if_neg (Ne.symm h.1), ih h.2]

theorem nextKind?_split {front rest : List (Place κ ω)} {p : Place κ ω}
    (h : p.kind ∉ front.map Place.kind) :
    nextKind? { places := front ++ p :: rest } p.kind = (rest.map Place.kind).head? := by
  rw [nextKind?, kinds, List.map_append, List.map_cons, kindAfter_split _ h]

/-! ## Changing the place of a kind -/

theorem kind_of_place? {c : Chain κ ω} {k : StageKind} {p : Place κ ω}
    (hp : c.place? k = some p) : p.kind = k := by
  simpa using List.find?_some hp

theorem contains_eq_isSome (c : Chain κ ω) (k : StageKind) :
    c.contains k = (c.place? k).isSome := by
  rw [Bool.eq_iff_iff, contains, List.contains_iff_mem, kinds, List.mem_map, place?,
    List.find?_isSome]
  simp only [decide_eq_true_eq]

/-- The place found for a kind is the only one of it. -/
theorem eq_of_place? {c : Chain κ ω} {k : StageKind} {p q : Place κ ω} (hc : c.kinds.Nodup)
    (hp : c.place? k = some p) (hq : q ∈ c.places) (hqk : q.kind = k) : q = p :=
  List.inj_on_of_nodup_map hc hq (List.mem_of_find?_eq_some hp) (hqk.trans (kind_of_place? hp).symm)

theorem place?_of_mem {c : Chain κ ω} {p : Place κ ω} (hc : c.kinds.Nodup) (hp : p ∈ c.places) :
    c.place? p.kind = some p := by
  have hsome : (c.place? p.kind).isSome := by
    rw [← contains_eq_isSome, contains, List.contains_iff_mem]
    exact List.mem_map_of_mem hp
  obtain ⟨q, hq⟩ := Option.isSome_iff_exists.mp hsome
  rw [hq, eq_of_place? hc hq hp rfl]

/-- Only what becomes of the place found for a kind matters. -/
theorem modify_congr {c : Chain κ ω} {k : StageKind} {p : Place κ ω} (hc : c.kinds.Nodup)
    (hp : c.place? k = some p) {f g : Place κ ω → Place κ ω} (h : f p = g p) :
    c.modify k f = c.modify k g := by
  rw [modify, modify]
  refine congrArg Chain.mk (List.map_congr_left fun q hq => ?_)
  split
  · rw [eq_of_place? hc hp hq ‹_›, h]
  · rfl

theorem modify_id (c : Chain κ ω) (k : StageKind) : (c.modify k fun p => p) = c := by
  rw [modify]
  exact congrArg Chain.mk ((List.map_congr_left fun q _ => ite_self q).trans (List.map_id _))

/-- To put the active stage back as it is changes nothing. -/
theorem setAt_top {c : Chain κ ω} {p : Place κ ω} (hc : c.kinds.Nodup) (hp : p ∈ c.places) :
    c.setAt p.kind p.topLevel p.top = c := by
  rw [setAt, modify_congr (g := fun q => q) hc (place?_of_mem hc hp) (p.setAt_topLevel p.top),
    modify_id]

theorem modify_of_place?_eq_none {c : Chain κ ω} {k : StageKind} (hk : c.place? k = none)
    (f : Place κ ω → Place κ ω) : c.modify k f = c := by
  refine congrArg Chain.mk (map_of_kind_notMem (fun hmem => ?_) f)
  obtain ⟨q, hq, hqk⟩ := List.mem_map.mp hmem
  exact List.find?_eq_none.mp hk q hq (decide_eq_true hqk)

theorem modify_modify (c : Chain κ ω) (k : StageKind) {f : Place κ ω → Place κ ω}
    (hf : ∀ p, (f p).kind = p.kind) (g : Place κ ω → Place κ ω) :
    (c.modify k f).modify k g = c.modify k fun p => g (f p) := by
  rw [modify, modify, modify, List.map_map]
  refine congrArg Chain.mk (List.map_congr_left fun q _ => ?_)
  rw [Function.comp_apply]
  by_cases hq : q.kind = k
  · rw [if_pos hq, if_pos ((hf q).trans hq), if_pos hq]
  · rw [if_neg hq, if_neg hq, if_neg hq]

theorem place?_map (ps : List (Place κ ω)) {f : Place κ ω → Place κ ω}
    (hf : ∀ p, (f p).kind = p.kind) (k : StageKind) :
    place? { places := ps.map f } k = (place? { places := ps } k).map f := by
  rw [place?, place?, List.find?_map]
  refine congrArg (Option.map f) (congrArg (List.find? · ps) (funext fun p => ?_))
  rw [Function.comp_apply, hf]

theorem place?_modify (c : Chain κ ω) (k : StageKind) {f : Place κ ω → Place κ ω}
    (hkind : ∀ p, (f p).kind = p.kind) (j : StageKind) :
    (c.modify k f).place? j = (c.place? j).map (if j = k then f else id) := by
  have hone : ∀ p : Place κ ω, (if p.kind = k then f p else p).kind = p.kind := by
    intro p
    split
    · exact hkind p
    · rfl
  rw [modify, place?_map c.places hone]
  cases hp : c.place? j with
  | none => rfl
  | some p =>
    show some (if p.kind = k then f p else p) = some ((if j = k then f else id) p)
    rw [kind_of_place? hp]
    split <;> rfl

theorem kinds_map (c : Chain κ ω) {f : Place κ ω → Place κ ω}
    (hf : ∀ p ∈ c.places, (f p).kind = p.kind) :
    kinds { places := c.places.map f } = c.kinds := by
  rw [kinds, kinds, List.map_map]
  exact List.map_congr_left hf

theorem kinds_modify (c : Chain κ ω) {k : StageKind} {f : Place κ ω → Place κ ω}
    (hf : ∀ p ∈ c.places, p.kind = k → (f p).kind = p.kind) : (c.modify k f).kinds = c.kinds := by
  refine c.kinds_map fun p hp => ?_
  split
  · exact hf p hp ‹_›
  · rfl

theorem contains_modify (c : Chain κ ω) (k j : StageKind) {f : Place κ ω → Place κ ω}
    (hf : ∀ p, (f p).kind = p.kind) : (c.modify k f).contains j = c.contains j := by
  rw [contains, contains, kinds_modify c fun p _ _ => hf p]

/-- Taking the active stage of a kind away is a change of the place of the kind. -/
theorem pop_eq_modify {c : Chain κ ω} {k : StageKind} (hc : c.kinds.Nodup) :
    (match c.pop k with
      | .ok (_, c') => c'
      | .error _ => c) = c.modify k Place.dropTop := by
  rw [pop]
  cases hp : c.place? k with
  | none => rw [modify_of_place?_eq_none hp]
  | some p =>
    cases hpop : p.pop? with
    | none =>
      have hdrop : p = p.dropTop := by rw [Place.dropTop, hpop]
      simp only [hpop]
      rw [← modify_congr (f := fun p => p) hc hp hdrop, modify_id]
    | some r =>
      have hdrop : r.2 = p.dropTop := by rw [Place.dropTop, hpop]
      simp only [hpop]
      exact modify_congr (f := fun _ => r.2) hc hp hdrop

end Chain

/-! ## Stages with a behaviour -/

variable [StageBehaviour κ ω]

namespace Place

theorem shadow_of_isStackable {p : Place κ ω} (hs : p.top.isStackable = true) :
    p.shadow = match p.top.spawn.2 with
      | some fresh => { p with top := p.top.spawn.1 }.push fresh
      | none => { p with top := p.top.spawn.1 } := by
  rw [shadow, if_pos hs]
  rcases p.top.spawn with ⟨top, _ | fresh⟩ <;> rfl

theorem kind_shadow (p : Place κ ω) : p.shadow.kind = p.kind := by
  by_cases h : p.top.isStackable = true
  · rw [shadow_of_isStackable h]
    cases p.top.spawn.2 <;> rfl
  · rw [shadow, if_neg h]

theorem restore_eq (p : Place κ ω) : p.restore = if p.top.isStackable then p.dropTop else p := rfl

theorem kind_restore (p : Place κ ω) : p.restore.kind = p.kind := by
  rw [restore_eq]
  split
  · exact p.kind_dropTop
  · rfl

end Place

namespace Chain

/-- Stages can be put in a row if their kinds are distinct, each at a place of its own. -/
theorem foldlM_add_eq_ok_iff (ss : List (Stage κ ω)) {c d : Chain κ ω} (hc : c.kinds.Nodup) :
    ss.foldlM add c = .ok d ↔ (c.kinds ++ ss.map Stage.kind).Nodup ∧
      d = { places := c.places ++ ss.map fun s => ⟨s.kind, s, []⟩ } := by
  induction ss generalizing c with
  | nil =>
    simp only [List.foldlM_nil, List.map_nil, List.append_nil, hc, true_and]
    exact ⟨fun h => (Except.ok.inj h).symm, fun h => congrArg _ h.symm⟩
  | cons s ss ih =>
    rw [List.foldlM_cons, List.map_cons, List.map_cons, add]
    by_cases hs : s.kind ∈ c.kinds
    · have hcontains : c.contains s.kind = true := by rwa [contains, List.contains_iff_mem]
      have hdup : ¬ (c.kinds ++ s.kind :: ss.map Stage.kind).Nodup := fun h =>
        (List.nodup_append'.mp h).2.2 hs List.mem_cons_self
      rw [if_pos hcontains]
      exact ⟨nofun, fun h => absurd h.1 hdup⟩
    · have hcontains : ¬ c.contains s.kind = true := by rwa [contains, List.contains_iff_mem]
      have hkinds : kinds { places := c.places ++ [⟨s.kind, s, []⟩] } = c.kinds ++ [s.kind] := by
        rw [kinds, List.map_append]
        rfl
      have hnodup : (kinds { places := c.places ++ [⟨s.kind, s, []⟩] }).Nodup := by
        rw [hkinds]
        exact List.nodup_append'.mpr ⟨hc, List.nodup_singleton _, List.disjoint_singleton.mpr hs⟩
      rw [if_neg hcontains]
      refine (ih hnodup).trans ?_
      rw [hkinds, List.append_assoc, List.append_assoc]
      rfl

/-- Shadowing the active stage of a kind is a change of the place of the kind, if the stage on
offer is of the kind. -/
theorem shadow_eq_modify {c : Chain κ ω} {k : StageKind} (hc : c.kinds.Nodup)
    (hfresh : ∀ s fresh, c.active? k = some s → s.spawn.2 = some fresh → fresh.kind = k) :
    (c.shadow k).2 = c.modify k Place.shadow := by
  rw [shadow]
  cases hp : c.place? k with
  | none =>
    rw [active?, hp, modify_of_place?_eq_none hp]
    rfl
  | some p =>
    have hactive : c.active? k = some p.top := by rw [active?, hp, Option.map_some]
    rw [hactive]
    dsimp only
    by_cases hs : p.top.isStackable = true
    · rw [if_pos hs]
      cases hspawn : p.top.spawn.2 with
      | none =>
        refine modify_congr hc hp ?_
        rw [Place.shadow_of_isStackable hs, hspawn]
      | some fresh =>
        have hkind := hfresh p.top fresh hactive hspawn
        have hcontains : c.contains k = true := by
          rw [contains, List.contains_iff_mem, ← kind_of_place? hp]
          exact List.mem_map_of_mem (List.mem_of_find?_eq_some hp)
        have hasked := contains_modify c k k (f := fun q => { q with top := p.top.spawn.1 })
          fun _ => rfl
        dsimp only
        rw [push, if_neg (not_not.mpr hkind), if_pos (hasked.trans hcontains)]
        dsimp only
        rw [modify_modify]
        · refine modify_congr hc hp ?_
          rw [Place.shadow_of_isStackable hs, hspawn]
        · exact fun _ => rfl
    · rw [if_neg hs]
      have hself : p = p.shadow := by rw [Place.shadow, if_neg hs]
      rw [← modify_congr (f := fun p => p) hc hp hself, modify_id]

/-! ## One visit -/

section Visit

variable {front rest : List (Place κ ω)} {p : Place κ ω} {e : Event} {w : ω}

/-- A stage that stays of its kind sends an event on to the place after its own. -/
theorem visit_split {visits : Nat} {a : Arrival (Stage κ ω) ω}
    (hfront : p.kind ∉ front.map Place.kind) (hrest : p.kind ∉ rest.map Place.kind)
    (ha : p.top.arrive e { places := front ++ p :: rest } w = a) (hkind : a.stage.kind = p.kind)
    (hshadow : a.shadowAll = false) :
    visit e (visits + 1) (some p.kind) { places := front ++ p :: rest } w =
      let c := { places := front ++ { p with top := a.stage } :: rest }
      (match a.verdict with
        | .forward => visit e visits (rest.map Place.kind).head? c a.world
        | .swallow => some ⟨.ok (), c, a.world⟩
        | .fail err => some ⟨.error err, c, a.world⟩).map
          (depart e p.kind p.topLevel a.stage) := by
  have hnext : nextKind? { places := front ++ { p with top := a.stage } :: rest } a.stage.kind =
      (rest.map Place.kind).head? := by
    rw [hkind]
    exact nextKind?_split (p := { p with top := a.stage }) hfront
  rw [visit, place?_split hfront]
  cases hverdict : a.verdict <;>
    simp only [ha, setAt_split hfront hrest, hshadow, Bool.false_eq_true, if_false, hnext, hverdict]

/-- A stage that was not removed meanwhile sees that the event has gone on. -/
theorem depart_split {left : Stage κ ω} {o : Outcome} {d : Departure (Stage κ ω) ω}
    (hfront : p.kind ∉ front.map Place.kind) (hrest : p.kind ∉ rest.map Place.kind)
    (hd : p.top.depart e { places := front ++ p :: rest } w = d)
    (hrestore : d.restoreAll = false) :
    depart e p.kind p.topLevel left ⟨o, { places := front ++ p :: rest }, w⟩ =
      ⟨o, { places := front ++ { p with top := d.stage } :: rest }, d.world⟩ := by
  simp only [depart, at?_split hfront, Option.getD_some, hd, setAt_split hfront hrest, hrestore,
    Bool.false_eq_true, if_false]

end Visit

end Chain

end DocTree
