import DocTree.Proofs.Chain.FanOut

/-!
# What later stages see of a tracker

While an event is on its way, a stage may ask the chain for a tracker. A tracker that stands before
the stage has then taken the event into account as it came, and has not yet seen it go.

**Watchers.** A `Watcher` is a stage that notes each event it meets, together with all that the
chain answers about trackers at that time, and sends the event on. What it notes is what any stage
at its place would see.

**Views.** `Tracker.views` are the events, each with the state in which the tracker lets it go on.

## Main results

* `Station.visit_stations`: what one event does in a chain of trackers, listeners and watchers.
* `Station.sendAll_views`: a watcher behind a tracker sees the tracker's views, one after another,
  up to the first event that a listener refuses.
* `Station.traverse_sightings`: the same for the traversal of a tree, event by event.
-/

namespace DocTree

variable {σ : Type}

/-! ## Watchers -/

/-- The active tracker of a kind, as it is found by asking the chain. -/
def Chain.tracker? {κ ω : Type} (c : Chain κ ω) (kind : StageKind) : Option Tracker :=
  match c.active? kind with
  | some (.tracker t) => some t
  | _ => none

/-- An event as a stage meets it, and what the chain then answers about trackers. -/
structure Sighting where
  stage : StageKind
  event : Event
  tracker? : StageKind → Option Tracker

/-- The state of listeners, beside the record of what watchers have seen. -/
abbrev Watched (σ : Type) := List Sighting × σ

/-- A stage that notes what it sees and sends every event on. -/
structure Watcher (σ : Type) where
  kind : StageKind

instance : StageBehaviour (Watcher σ) (Watched σ) where
  kind w := w.kind
  arrive e c w s := { stage := w, world := (s.1 ++ [⟨w.kind, e, c.tracker?⟩], s.2) }

/-- A stage of a watched chain. Listeners know nothing of the record. -/
inductive Station (σ : Type)
  | tracker (t : Tracker)
  | listener (kind : StageKind) (l : Listener σ)
  | watcher (kind : StageKind)

namespace Station

def kind : Station σ → StageKind
  | tracker t => t.kind
  | listener k _ | watcher k => k

def stage : Station σ → Stage (Watcher σ) (Watched σ)
  | tracker t => .tracker t
  | listener k l => .listener k (l.focus Prod.snd fun w s => (s.1, w))
  | watcher k => .custom ⟨k⟩

/-- The place that a station is made with. -/
def place (s : Station σ) : Place (Watcher σ) (Watched σ) := ⟨s.kind, s.stage, []⟩

def chain (ss : List (Station σ)) : Chain (Watcher σ) (Watched σ) := { places := ss.map place }

def listener? : Station σ → Option (Listener σ)
  | listener _ l => some l
  | tracker _ | watcher _ => none

/-- The listeners among the stations, in their order. -/
def listeners (ss : List (Station σ)) : List (Listener σ) := ss.filterMap listener?

/-- The station refuses no event. Only listeners refuse events. -/
def Accepts : Station σ → Prop
  | listener _ l => ∀ e w, (l.deliver e w).1 = .ok ()
  | tracker _ | watcher _ => True

/-- The station while an event that it has let go on is ahead of it. -/
def during (e : Event) : Station σ → Station σ
  | tracker t => tracker (t.before e)
  | s => s

/-- The station when an event has gone on and come back. -/
def after (e : Event) : Station σ → Station σ
  | tracker t => tracker (t.pass e)
  | s => s

theorem kind_place (s : Station σ) : s.place.kind = s.kind := rfl

theorem kind_stage (s : Station σ) : s.stage.kind = s.kind := by cases s <;> rfl

theorem kind_during (e : Event) (s : Station σ) : (s.during e).kind = s.kind := by
  cases s with
  | tracker t => exact t.kind_before e
  | listener | watcher => rfl

theorem kind_after (e : Event) (s : Station σ) : (s.after e).kind = s.kind := by
  cases s with
  | tracker t => exact t.kind_pass e
  | listener | watcher => rfl

theorem accepts_after (e : Event) (s : Station σ) : (s.after e).Accepts ↔ s.Accepts := by
  cases s <;> rfl

theorem map_kind_place (ss : List (Station σ)) : (ss.map place).map Place.kind = ss.map kind := by
  rw [List.map_map]
  rfl

theorem map_kind_after (e : Event) (ss : List (Station σ)) :
    (ss.map (after e)).map kind = ss.map kind := by
  rw [List.map_map]
  exact List.map_congr_left fun s _ => s.kind_after e

theorem listeners_after (e : Event) (ss : List (Station σ)) :
    listeners (ss.map (after e)) = listeners ss := by
  rw [listeners, List.filterMap_map]
  refine List.filterMap_congr fun s _ => ?_
  cases s <;> rfl

/-- The chain that is built from stations of distinct kinds. -/
theorem build_eq_ok_iff {ss : List (Station σ)} {c : Chain (Watcher σ) (Watched σ)} :
    (ss.map stage).foldlM Chain.add {} = .ok c ↔ (ss.map kind).Nodup ∧ c = chain ss := by
  have hkinds : (ss.map stage).map Stage.kind = ss.map kind := by
    rw [List.map_map]
    exact List.map_congr_left fun s _ => s.kind_stage
  have hplaces : (ss.map stage).map (fun s => (⟨s.kind, s, []⟩ : Place (Watcher σ) (Watched σ))) =
      ss.map place := by
    rw [List.map_map]
    exact List.map_congr_left fun s _ => by rw [Function.comp_apply, kind_stage]; rfl
  rw [Chain.foldlM_add_eq_ok_iff _ (c := {}) List.nodup_nil, hkinds, hplaces]
  rfl

end Station

/-! ## One event -/

/-- What an event has done when it is back from some stations. -/
structure Passage (σ : Type) where
  outcome : Outcome
  stations : List (Station σ)
  seen : List Sighting
  world : σ

namespace Station

/-- An event goes through the stations ahead, when those behind have let it go on. -/
def pass (e : Event) : (behind ahead : List (Station σ)) → σ → Passage σ
  | _, [], w => ⟨.ok (), [], [], w⟩
  | behind, tracker t :: ahead, w =>
    let p := pass e (behind ++ [tracker (t.before e)]) ahead w
    { p with stations := tracker (t.pass e) :: p.stations }
  | behind, listener k l :: ahead, w =>
    match l.deliver e w with
    | (.ok _, w') =>
      let p := pass e (behind ++ [listener k l]) ahead w'
      { p with stations := listener k l :: p.stations }
    | (.error err, w') => ⟨.error err, listener k l :: ahead, [], w'⟩
  | behind, watcher k :: ahead, w =>
    let p := pass e (behind ++ [watcher k]) ahead w
    { p with
      stations := watcher k :: p.stations
      seen := ⟨k, e, (chain (behind ++ watcher k :: ahead)).tracker?⟩ :: p.seen }

theorem map_kind_pass (e : Event) : ∀ (behind ahead : List (Station σ)) (w : σ),
    (pass e behind ahead w).stations.map kind = ahead.map kind
  | _, [], _ => rfl
  | behind, tracker t :: ahead, w => by
    rw [pass, List.map_cons, List.map_cons, map_kind_pass e _ ahead w]
    exact congrArg (· :: _) (t.kind_pass e)
  | behind, listener k l :: ahead, w => by
    rw [pass]
    split
    · rw [List.map_cons, List.map_cons, map_kind_pass e _ ahead _]
    · rfl
  | behind, watcher k :: ahead, w => by
    rw [pass, List.map_cons, List.map_cons, map_kind_pass e _ ahead w]

/-- The listeners take the event as a fan-out over them does. -/
theorem pass_eq_fanOut (e : Event) : ∀ (behind ahead : List (Station σ)) (w : σ),
    ((pass e behind ahead w).outcome, (pass e behind ahead w).world) =
      (Listener.fanOut (listeners ahead)).deliver e w
  | _, [], _ => rfl
  | behind, tracker t :: ahead, w => pass_eq_fanOut e (behind ++ [tracker (t.before e)]) ahead w
  | behind, watcher k :: ahead, w => pass_eq_fanOut e (behind ++ [watcher k]) ahead w
  | behind, listener k l :: ahead, w => by
    have hlisteners : listeners (listener k l :: ahead) = l :: listeners ahead := rfl
    rw [hlisteners, Listener.deliver_fanOut_cons, Step.andThen, pass]
    rcases l.deliver e w with ⟨err | ⟨⟩, w'⟩
    · rfl
    · exact pass_eq_fanOut e (behind ++ [listener k l]) ahead w'

theorem place_with_top {s s' : Station σ} (h : s'.kind = s.kind) :
    ({ s.place with top := s'.stage } : Place (Watcher σ) (Watched σ)) = s'.place := by
  rw [place, place, h]

theorem chain_split (behind : List (Station σ)) (s : Station σ) (ahead : List (Station σ)) :
    chain (behind ++ s :: ahead) =
      { places := behind.map place ++ s.place :: ahead.map place } := by
  rw [chain, List.map_append, List.map_cons]

theorem map_kind_congr {s s' : Station σ} (h : s'.kind = s.kind) (behind ahead : List (Station σ)) :
    (behind ++ s' :: ahead).map kind = (behind ++ s :: ahead).map kind := by
  rw [List.map_append, List.map_append, List.map_cons, List.map_cons, h]

/-- In a row of distinct kinds, a kind is neither before nor after itself. -/
theorem kind_notMem {behind ahead : List (Station σ)} {s : Station σ}
    (h : ((behind ++ s :: ahead).map kind).Nodup) :
    s.kind ∉ behind.map kind ∧ s.kind ∉ ahead.map kind := by
  rw [List.map_append, List.map_cons] at h
  rw [← not_or, ← List.mem_append]
  exact (List.nodup_cons.mp (List.nodup_middle.mp h)).1

/-- A station is `s'` while an event is ahead of it, and `s''` when the event is back. -/
theorem visit_station {e : Event} {behind ahead ahead' : List (Station σ)} {s s' s'' : Station σ}
    {visits : Nat} {w w' w'' : Watched σ} {verdict : Verdict} {o : Outcome}
    (hkinds : ((behind ++ s :: ahead).map kind).Nodup) (hkind : s'.kind = s.kind)
    (hkind' : s''.kind = s'.kind) (hahead : ahead'.map kind = ahead.map kind)
    (harrive : s.stage.arrive e (chain (behind ++ s :: ahead)) w =
      { stage := s'.stage, world := w', verdict })
    (hdepart : ∀ c w, s'.stage.depart e c w = { stage := s''.stage, world := w })
    (honward : (match verdict with
        | .forward => Chain.visit e visits (ahead.map kind).head? (chain (behind ++ s' :: ahead)) w'
        | .swallow => some ⟨.ok (), chain (behind ++ s' :: ahead), w'⟩
        | .fail err => some ⟨.error err, chain (behind ++ s' :: ahead), w'⟩) =
      some ⟨o, chain (behind ++ s' :: ahead'), w''⟩) :
    Chain.visit e (visits + 1) (some s.kind) (chain (behind ++ s :: ahead)) w =
      some ⟨o, chain (behind ++ s'' :: ahead'), w''⟩ := by
  obtain ⟨hbehind, hrest⟩ := kind_notMem hkinds
  rw [chain_split] at harrive ⊢
  refine (Chain.visit_split (p := s.place) (by rwa [map_kind_place]) (by rwa [map_kind_place])
    harrive (s'.kind_stage.trans hkind) rfl).trans ?_
  dsimp only
  rw [place_with_top hkind, ← chain_split, map_kind_place]
  refine (congrArg (Option.map _) honward).trans ?_
  rw [Option.map_some, chain_split, chain_split, s.kind_place, ← hkind]
  refine congrArg some ?_
  refine (Chain.depart_split (p := s'.place) (by rwa [map_kind_place, kind_place, hkind])
    (by rwa [map_kind_place, kind_place, hkind, hahead]) (hdepart _ _) rfl).trans ?_
  dsimp only
  rw [place_with_top hkind']

/-- From any place on, a chain does with an event what `pass` says. -/
theorem visit_stations (e : Event) : ∀ (behind ahead : List (Station σ)) (visits : Nat)
    (log : List Sighting) (w : σ), ahead.length ≤ visits → ((behind ++ ahead).map kind).Nodup →
      Chain.visit e visits (ahead.map kind).head? (chain (behind ++ ahead)) (log, w) =
        some ⟨(pass e behind ahead w).outcome, chain (behind ++ (pass e behind ahead w).stations),
          (log ++ (pass e behind ahead w).seen, (pass e behind ahead w).world)⟩
  | behind, [], visits, log, w, _, _ => by
    rw [pass, List.append_nil, List.append_nil]
    cases visits <;> rfl
  | behind, .tracker t :: ahead, visits + 1, log, w, hvisits, hkinds => by
    have hkind : (tracker (t.before e) : Station σ).kind = (tracker t : Station σ).kind :=
      t.kind_before e
    have ih := visit_stations e (behind ++ [tracker (t.before e)]) ahead visits log w
      (Nat.le_of_succ_le_succ hvisits)
      (by rwa [List.append_assoc, List.singleton_append, map_kind_congr hkind])
    rw [List.append_assoc, List.append_assoc] at ih
    have hkind' : (tracker (t.pass e) : Station σ).kind = (tracker (t.before e) : Station σ).kind :=
      (t.kind_pass e).trans (t.kind_before e).symm
    exact visit_station hkinds hkind hkind' (map_kind_pass e _ ahead w) rfl (fun _ _ => rfl) ih
  | behind, .listener k l :: ahead, visits + 1, log, w, hvisits, hkinds => by
    have hdeliver : (l.focus Prod.snd fun w s => (s.1, w)).deliver e (log, w) =
        ((l.deliver e w).1, (log, (l.deliver e w).2)) := rfl
    rw [pass]
    rcases hd : l.deliver e w with ⟨err | ⟨⟩, w'⟩
    · rw [hd] at hdeliver
      have harrive : (listener k l).stage.arrive e (chain (behind ++ .listener k l :: ahead))
          (log, w) =
            { stage := (listener k l).stage, world := (log, w'), verdict := .fail err } := by
        simp only [stage, Stage.arrive, hdeliver]
      rw [List.append_nil]
      exact visit_station hkinds rfl rfl rfl harrive (fun _ _ => rfl) rfl
    · rw [hd] at hdeliver
      have harrive : (listener k l).stage.arrive e (chain (behind ++ .listener k l :: ahead))
          (log, w) = { stage := (listener k l).stage, world := (log, w') } := by
        simp only [stage, Stage.arrive, hdeliver]
      have ih := visit_stations e (behind ++ [listener k l]) ahead visits log w'
        (Nat.le_of_succ_le_succ hvisits) (by rwa [List.append_assoc, List.singleton_append])
      rw [List.append_assoc, List.append_assoc] at ih
      exact visit_station hkinds rfl rfl (map_kind_pass e _ ahead w') harrive (fun _ _ => rfl) ih
  | behind, .watcher k :: ahead, visits + 1, log, w, hvisits, hkinds => by
    have ih := visit_stations e (behind ++ [watcher k]) ahead visits
      (log ++ [⟨k, e, (chain (behind ++ .watcher k :: ahead)).tracker?⟩]) w
      (Nat.le_of_succ_le_succ hvisits) (by rwa [List.append_assoc, List.singleton_append])
    rw [List.append_assoc, List.append_assoc, List.append_assoc log] at ih
    exact visit_station hkinds rfl rfl (map_kind_pass e _ ahead w) rfl (fun _ _ => rfl) ih

/-- An event that is sent goes through all stations. -/
theorem send_stations {ss : List (Station σ)} (hkinds : (ss.map kind).Nodup) (e : Event)
    (log : List Sighting) (w : σ) :
    (chain ss).send e (log, w) =
      some ⟨(pass e [] ss w).outcome, chain (pass e [] ss w).stations,
        (log ++ (pass e [] ss w).seen, (pass e [] ss w).world)⟩ := by
  have h := visit_stations e [] ss ss.length log w (Nat.le_refl _) hkinds
  have hfirst : (chain ss).firstKind? = (ss.map kind).head? :=
    congrArg List.head? (map_kind_place ss)
  rw [Chain.send, Chain.sendWithin, hfirst, chain, List.length_map]
  exact h

/-! ## What watchers note -/

/-- What a station notes when an event comes. -/
def note (e : Event) (behind : List (Station σ)) (s : Station σ) (ahead : List (Station σ)) :
    List Sighting :=
  match s with
  | watcher k => [⟨k, e, (chain (behind ++ s :: ahead)).tracker?⟩]
  | _ => []

/-- A station lets an event go on and gets it back, or refuses it. -/
theorem pass_cons (e : Event) (behind : List (Station σ)) (s : Station σ)
    (ahead : List (Station σ)) (w : σ) :
    (∃ w', (pass e behind (s :: ahead) w).outcome =
          (pass e (behind ++ [s.during e]) ahead w').outcome ∧
        (pass e behind (s :: ahead) w).stations =
          s.after e :: (pass e (behind ++ [s.during e]) ahead w').stations ∧
        (pass e behind (s :: ahead) w).seen =
          s.note e behind ahead ++ (pass e (behind ++ [s.during e]) ahead w').seen) ∨
      (¬s.Accepts ∧ (pass e behind (s :: ahead) w).outcome ≠ .ok () ∧
        (pass e behind (s :: ahead) w).stations = s :: ahead ∧
        (pass e behind (s :: ahead) w).seen = []) := by
  cases s with
  | tracker t => exact .inl ⟨w, rfl, rfl, rfl⟩
  | watcher k => exact .inl ⟨w, rfl, rfl, rfl⟩
  | listener k l =>
    rw [pass]
    rcases hd : l.deliver e w with ⟨err | ⟨⟩, w'⟩
    · have hrefused : ¬(listener k l).Accepts := fun h => by simpa [hd] using h e w
      exact .inr ⟨hrefused, nofun, rfl, rfl⟩
    · exact .inl ⟨w', rfl, rfl, rfl⟩

/-- An event that nobody refuses passes all trackers. -/
theorem stations_pass {e : Event} {behind ahead : List (Station σ)} {w : σ}
    (h : (pass e behind ahead w).outcome = .ok ()) :
    (pass e behind ahead w).stations = ahead.map (after e) := by
  induction ahead generalizing behind w with
  | nil => rfl
  | cons s ahead ih =>
    rcases pass_cons e behind s ahead w with ⟨w', houtcome, hstations, -⟩ | ⟨-, hfailed, -⟩
    · rw [hstations, List.map_cons, ih (houtcome ▸ h)]
    · exact absurd h hfailed

theorem tracker?_chain {ss : List (Station σ)} {t : Tracker} (hkinds : (ss.map kind).Nodup)
    (ht : tracker t ∈ ss) : (chain ss).tracker? t.kind = some t := by
  obtain ⟨front, rest, rfl⟩ := List.append_of_mem ht
  have hfront : (tracker t : Station σ).place.kind ∉ (front.map place).map Place.kind := by
    rw [map_kind_place]
    exact (kind_notMem hkinds).1
  rw [Chain.tracker?, Chain.active?, chain_split]
  have hplace : Chain.place? { places := front.map place ++ (tracker t).place :: rest.map place }
      t.kind = some (tracker t).place := Chain.place?_split hfront
  rw [hplace]
  rfl

/-- What is noted about the tracker of a kind at the stage of another kind. -/
def reports (kind stage : StageKind) (seen : List Sighting) : List (Event × Option Tracker) :=
  (seen.filter (·.stage = stage)).map fun x => (x.event, x.tracker? kind)

theorem reports_append (kind stage : StageKind) (xs ys : List Sighting) :
    reports kind stage (xs ++ ys) = reports kind stage xs ++ reports kind stage ys := by
  rw [reports, List.filter_append, List.map_append]
  rfl

theorem mem_reports {kind stage : StageKind} {seen : List Sighting} {x : Sighting} (hx : x ∈ seen)
    (hstage : x.stage = stage) : (x.event, x.tracker? kind) ∈ reports kind stage seen :=
  List.mem_map_of_mem (List.mem_filter.mpr ⟨hx, decide_eq_true hstage⟩)

/-- A station of another kind adds nothing. -/
theorem reports_note_of_ne {kind stage : StageKind} {e : Event} {behind ahead : List (Station σ)}
    {s : Station σ} (h : s.kind ≠ stage) : reports kind stage (s.note e behind ahead) = [] := by
  cases s with
  | tracker | listener => rfl
  | watcher k =>
    have hk : k ≠ stage := h
    simp [note, reports, hk]

/-- Nothing is noted at stages that are not ahead. -/
theorem reports_pass_of_notMem {kind' stage : StageKind} {e : Event}
    {behind ahead : List (Station σ)} {w : σ} (h : stage ∉ ahead.map kind) :
    reports kind' stage (pass e behind ahead w).seen = [] := by
  induction ahead generalizing behind w with
  | nil => rfl
  | cons s ahead ih =>
    rw [List.map_cons, List.mem_cons, not_or] at h
    rcases pass_cons e behind s ahead w with ⟨w', -, -, hseen⟩ | ⟨-, -, -, hseen⟩
    · rw [hseen, reports_append, reports_note_of_ne (Ne.symm h.1), ih h.2]
      rfl
    · rw [hseen]
      rfl

/-- What a watcher notes of a tracker when one event is sent. It notes nothing if the event does
not come through to it. -/
structure Notes (e : Event) (t : Tracker) (k : StageKind) (p : Passage σ) : Prop where
  isPrefix : reports t.kind k p.seen <+: [(e, some t)]
  of_ok : p.outcome = .ok () → reports t.kind k p.seen = [(e, some t)]

theorem Notes.cons {e : Event} {t : Tracker} {k : StageKind} {behind ahead : List (Station σ)}
    {s : Station σ} {w : σ} (hs : s.kind ≠ k)
    (h : ∀ w', Notes e t k (pass e (behind ++ [s.during e]) ahead w')) :
    Notes e t k (pass e behind (s :: ahead) w) := by
  rcases pass_cons e behind s ahead w with ⟨w', houtcome, -, hseen⟩ | ⟨-, hfailed, -, hseen⟩
  · have hreports : reports t.kind k (pass e behind (s :: ahead) w).seen =
        reports t.kind k (pass e (behind ++ [s.during e]) ahead w').seen := by
      rw [hseen, reports_append, reports_note_of_ne hs, List.nil_append]
    exact ⟨hreports ▸ (h w').isPrefix, fun hok => hreports.trans ((h w').of_ok (houtcome ▸ hok))⟩
  · exact ⟨hseen ▸ List.nil_prefix, fun hok => absurd hok hfailed⟩

theorem nodup_during {e : Event} {behind ahead : List (Station σ)} {s : Station σ}
    (h : ((behind ++ s :: ahead).map kind).Nodup) :
    ((behind ++ [s.during e] ++ ahead).map kind).Nodup := by
  rwa [List.append_assoc, List.singleton_append, map_kind_congr (s.kind_during e)]

/-- A watcher ahead notes the state of a tracker that has let the event go on. -/
theorem notes_of_behind {e : Event} {t : Tracker} {k : StageKind} {behind ahead : List (Station σ)}
    {w : σ} (hkinds : ((behind ++ ahead).map kind).Nodup) (ht : tracker t ∈ behind)
    (hk : watcher k ∈ ahead) : Notes e t k (pass e behind ahead w) := by
  induction ahead generalizing behind w with
  | nil => exact absurd hk List.not_mem_nil
  | cons s ahead ih =>
    obtain ⟨-, hrest⟩ := kind_notMem hkinds
    rcases List.mem_cons.mp hk with rfl | hk
    · have hreports : reports t.kind k (pass e behind (watcher k :: ahead) w).seen =
          [(e, some t)] := by
        have hfound := tracker?_chain hkinds (List.mem_append_left _ ht)
        have hlater : reports t.kind k (pass e (behind ++ [watcher k]) ahead w).seen = [] :=
          reports_pass_of_notMem hrest
        have hseen : (pass e behind (watcher k :: ahead) w).seen =
            [⟨k, e, (chain (behind ++ watcher k :: ahead)).tracker?⟩] ++
              (pass e (behind ++ [watcher k]) ahead w).seen := rfl
        rw [hseen, reports_append, hlater]
        simp [reports, hfound]
      exact ⟨hreports ▸ List.prefix_rfl, fun _ => hreports⟩
    · have hs : s.kind ≠ k := fun h => hrest (h ▸ List.mem_map_of_mem hk)
      exact .cons hs fun w' => ih (nodup_during hkinds) (List.mem_append_left _ ht) hk

/-- So does a watcher behind a tracker that is still ahead. -/
theorem notes_of_ahead {e : Event} {t : Tracker} {k : StageKind}
    {behind front rest : List (Station σ)} {w : σ}
    (hkinds : ((behind ++ (front ++ tracker t :: rest)).map kind).Nodup) (hk : watcher k ∈ rest) :
    Notes e (t.before e) k (pass e behind (front ++ tracker t :: rest) w) := by
  induction front generalizing behind w with
  | nil =>
    obtain ⟨-, hrest⟩ := kind_notMem hkinds
    have hs : (tracker t : Station σ).kind ≠ k := fun h => hrest (h ▸ List.mem_map_of_mem hk)
    exact .cons hs fun w' => notes_of_behind (nodup_during hkinds)
      (List.mem_append_right _ (List.mem_singleton_self _)) hk
  | cons s front ih =>
    obtain ⟨-, hrest⟩ := kind_notMem hkinds
    have hs : s.kind ≠ k := fun h => hrest (h ▸ List.mem_map_of_mem
      (List.mem_append_right _ (List.mem_cons_of_mem _ hk)))
    exact .cons hs fun w' => ih (nodup_during hkinds)

end Station

/-! ## All events -/

/-- The events, each with the state in which the tracker lets it go on. -/
def Tracker.views (t : Tracker) : List Event → List (Event × Option Tracker)
  | [] => []
  | e :: es => (e, some (t.before e)) :: (t.pass e).views es

/-- The state in which a tracker lets the event at a position go on. -/
theorem Tracker.getElem?_views (t : Tracker) (es : List Event) (i : Nat) :
    (t.views es)[i]? =
      es[i]?.map fun e => (e, some (((es.take i).foldl Tracker.pass t).before e)) := by
  induction es generalizing t i with
  | nil => rfl
  | cons e es ih =>
    cases i with
    | zero => rfl
    | succ i => exact ih (t.pass e) i

theorem Tracker.map_fst_views (t : Tracker) (es : List Event) :
    (t.views es).map Prod.fst = es := by
  induction es generalizing t with
  | nil => rfl
  | cons e es ih => exact congrArg (e :: ·) (ih (t.pass e))

/-- What holds before the first event and is kept by every event holds before the event at any
position. -/
theorem foldl_take_induction {α : Type} {f : α → Event → α} {P : Nat → α → Prop} {es : List Event}
    {a : α} (start : P 0 a)
    (step : ∀ {i : Nat} {e : Event} {v : α}, es[i]? = some e → P i v → P (i + 1) (f v e)) {i : Nat}
    (hi : i ≤ es.length) : P i ((es.take i).foldl f a) := by
  induction i with
  | zero => exact start
  | succ i ih =>
    have he : es[i]? = some es[i] := List.getElem?_eq_getElem hi
    rw [List.take_add_one, he, Option.toList_some, List.foldl_concat]
    exact step he (ih (Nat.le_of_succ_le hi))

namespace Station

theorem sendAll_cons_ok {ss : List (Station σ)} (hkinds : (ss.map kind).Nodup) {e : Event}
    {w : σ} (h : (pass e [] ss w).outcome = .ok ()) (es : List Event) (log : List Sighting) :
    (chain ss).sendAll (log, w) (e :: es) =
      (chain (ss.map (after e))).sendAll (log ++ (pass e [] ss w).seen, (pass e [] ss w).world)
        es := by
  rw [Chain.sendAll, send_stations hkinds, h, stations_pass h]

theorem sendAll_cons_error {ss : List (Station σ)} (hkinds : (ss.map kind).Nodup) {e : Event}
    {w : σ} {err : ListenerError} (h : (pass e [] ss w).outcome = .error err) (es : List Event)
    (log : List Sighting) :
    ∃ c, (chain ss).sendAll (log, w) (e :: es) =
      some ⟨.error err, c, (log ++ (pass e [] ss w).seen, (pass e [] ss w).world)⟩ := by
  rw [Chain.sendAll, send_stations hkinds, h]
  exact ⟨_, rfl⟩

/-- The listeners take the events as a fan-out over them does. -/
theorem sendAll_eq_fanOut (es : List Event) {ss : List (Station σ)}
    (hkinds : (ss.map kind).Nodup) (log : List Sighting) (w : σ)
    {d : Chain.Delivered (Watcher σ) (Watched σ)} (hd : (chain ss).sendAll (log, w) es = some d) :
    (d.outcome, d.world.2) = (Listener.fanOut (listeners ss)).deliverAll es w := by
  induction es generalizing ss log w with
  | nil =>
    obtain rfl := Option.some.inj hd
    rfl
  | cons e es ih =>
    have hone := pass_eq_fanOut e [] ss w
    rw [Listener.deliverAll, Step.andThen, ← hone]
    rcases houtcome : (pass e [] ss w).outcome with err | ⟨⟩
    · obtain ⟨c, hc⟩ := sendAll_cons_error hkinds houtcome es log
      obtain rfl := Option.some.inj (hd.symm.trans hc)
      rfl
    · rw [sendAll_cons_ok hkinds houtcome] at hd
      rw [← listeners_after e ss]
      exact ih (by rwa [map_kind_after]) _ _ hd

/-- **A watcher behind a tracker sees the tracker's views,** one after another, up to the first
event that a listener refuses, and all of them if no event is refused. -/
theorem sendAll_views {front rest : List (Station σ)} {t : Tracker} (es : List Event)
    (log : List Sighting) (w : σ) (hkinds : ((front ++ tracker t :: rest).map kind).Nodup) :
    ∃ d seen, (chain (front ++ tracker t :: rest)).sendAll (log, w) es = some d ∧
      d.world.1 = log ++ seen ∧
      (∀ k, watcher k ∈ rest → reports t.kind k seen <+: t.views es) ∧
      (d.outcome = .ok () → (∀ k, watcher k ∈ rest → reports t.kind k seen = t.views es) ∧
        d.chain.tracker? t.kind = some (es.foldl Tracker.pass t)) := by
  induction es generalizing front rest t log w with
  | nil =>
    refine ⟨_, [], rfl, (List.append_nil log).symm, fun _ _ => List.nil_prefix, fun _ =>
      ⟨fun _ _ => rfl, tracker?_chain hkinds (List.mem_append_right _ List.mem_cons_self)⟩⟩
  | cons e es ih =>
    let p := pass e [] (front ++ tracker t :: rest) w
    have hnotes : ∀ k, watcher k ∈ rest → reports t.kind k p.seen <+: [(e, some (t.before e))] ∧
        (p.outcome = .ok () → reports t.kind k p.seen = [(e, some (t.before e))]) := by
      intro k hk
      have h : Notes e (t.before e) k p := notes_of_ahead hkinds hk
      rw [← t.kind_before e]
      exact ⟨h.isPrefix, h.of_ok⟩
    rcases houtcome : p.outcome with err | ⟨⟩
    · obtain ⟨c, hd⟩ := sendAll_cons_error hkinds houtcome es log
      refine ⟨_, p.seen, hd, rfl, fun k hk => ?_, nofun⟩
      exact (hnotes k hk).1.trans (List.prefix_append [_] _)
    · have hstations : (front ++ tracker t :: rest).map (after e) =
          front.map (after e) ++ tracker (t.pass e) :: rest.map (after e) := by
        rw [List.map_append, List.map_cons]
        rfl
      have hkinds' : ((front.map (after e) ++ tracker (t.pass e) :: rest.map (after e)).map
          kind).Nodup := by
        rwa [← hstations, map_kind_after]
      have hwatcher : ∀ k, watcher k ∈ rest → watcher k ∈ rest.map (after e) :=
        fun k hk => List.mem_map_of_mem (f := after e) hk
      obtain ⟨d, seen, hd, hlog, hsome, hall⟩ := ih (log ++ p.seen) p.world hkinds'
      rw [t.kind_pass e] at hsome hall
      refine ⟨d, p.seen ++ seen, ?_, ?_, fun k hk => ?_, fun hok => ⟨fun k hk => ?_, (hall hok).2⟩⟩
      · rw [sendAll_cons_ok hkinds houtcome, hstations]
        exact hd
      · rw [hlog, List.append_assoc]
      · rw [reports_append, (hnotes k hk).2 houtcome, Tracker.views]
        exact (List.prefix_append_right_inj [_]).mpr (hsome k (hwatcher k hk))
      · rw [reports_append, (hnotes k hk).2 houtcome, (hall hok).1 k (hwatcher k hk)]
        rfl

/-- The traversal of a tree: what a watcher notes about a tracker before it, one event after
another. Only the listeners decide how far it gets. -/
theorem traverse_sightings {front rest : List (Station σ)} {t : Tracker}
    {c : Chain (Watcher σ) (Watched σ)}
    (hc : ((front ++ tracker t :: rest).map stage).foldlM Chain.add {} = .ok c) (b : Block)
    (w : σ) :
    ∃ d, c.traverse ([], w) b = some d ∧
      (d.outcome, d.world.2) =
        (Listener.fanOut (listeners (front ++ tracker t :: rest))).traverse b w ∧
      (∀ k, watcher k ∈ rest → ∀ i x, (d.world.1.filter (·.stage = k))[i]? = some x →
        b.events[i]? = some x.event ∧
          x.tracker? t.kind = some (((b.events.take i).foldl Tracker.pass t).before x.event)) ∧
      (d.outcome = .ok () →
        (∀ k, watcher k ∈ rest → (d.world.1.filter (·.stage = k)).map (·.event) = b.events) ∧
          d.chain.tracker? t.kind = some (b.events.foldl Tracker.pass t)) := by
  obtain ⟨hkinds, rfl⟩ := build_eq_ok_iff.mp hc
  obtain ⟨d, seen, hd, hlog, hsome, hall⟩ := sendAll_views b.events [] w hkinds
  obtain rfl : d.world.1 = seen := hlog
  refine ⟨d, hd, sendAll_eq_fanOut b.events hkinds [] w hd, fun k hk i x hx => ?_, fun hok =>
    ⟨fun k hk => ?_, (hall hok).2⟩⟩
  · have hreport : (reports t.kind k d.world.1)[i]? = some (x.event, x.tracker? t.kind) := by
      rw [reports, List.getElem?_map, hx]
      rfl
    obtain ⟨later, hviews⟩ := hsome k hk
    have hview : (t.views b.events)[i]? = some (x.event, x.tracker? t.kind) := by
      rw [← hviews, List.getElem?_append_left (List.getElem?_eq_some_iff.mp hreport).1, hreport]
    rw [Tracker.getElem?_views] at hview
    obtain ⟨e, he, hpair⟩ := Option.map_eq_some_iff.mp hview
    obtain ⟨rfl, htracker⟩ := Prod.mk.inj hpair
    exact ⟨he, htracker.symm⟩
  · have hevents := congrArg (List.map Prod.fst) ((hall hok).1 k hk)
    rwa [reports, List.map_map, Tracker.map_fst_views] at hevents

/-- What a watcher has noted about an event, if it has noted all of them. -/
theorem exists_sighting {log : List Sighting} {k : StageKind} {es : List Event}
    (h : (log.filter (·.stage = k)).map (·.event) = es) {i : Nat} {e : Event}
    (he : es[i]? = some e) :
    ∃ x, (log.filter (·.stage = k))[i]? = some x ∧ x.event = e := by
  rw [← h, List.getElem?_map] at he
  exact Option.map_eq_some_iff.mp he

end Station

end DocTree
