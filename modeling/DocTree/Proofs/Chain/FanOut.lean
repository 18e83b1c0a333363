import DocTree.Proofs.Chain.Places

/-!
# A chain is a fan-out

A chain of trackers and listeners delivers events as a fan-out over its listeners does, in the order
of the chain, whatever is shadowed and brought back between the events.

**The reference for trackers** (`Entry`). A ledger has an entry for each place. Of a tracker it does
not keep the state, but the one at the time when the tracker was put in place, and the events that
have reached it since (`Instance`). An event reaches the places in order, up to and with the first
listener that fails (`note`).

**The reference for listeners** (`Listener.fanOut`). It knows nothing of places. Listeners that log
what they receive (`Listener.logged`) are listeners like others, so the two sides also agree on who
receives what and when.

## Main results

* `visit_places`: what one event does, from any place on.
* `place_shadow`, `place_pop`, `place_restore`: the ledger follows changes of places.
* `Chain.actAll_eq_fanOut`: any number of events and changes of places, up to the first failure.
-/

namespace DocTree

variable {κ ω : Type}

/-! ## Chains of trackers and listeners -/

/-- A stage that is not of a type of its own. -/
inductive Part (ω : Type)
  | tracker (t : Tracker)
  | listener (kind : StageKind) (l : Listener ω)

namespace Part

def kind : Part ω → StageKind
  | tracker t => t.kind
  | listener k _ => k

def stage : Part ω → Stage κ ω
  | tracker t => .tracker t
  | listener k l => .listener k l

def listener? : Part ω → Option (Listener ω)
  | tracker _ => none
  | listener _ l => some l

/-- The listeners among the stages of a chain, in its order. -/
def listeners (parts : List (Part ω)) : List (Listener ω) := parts.filterMap listener?

end Part

/-- No stages of a type of their own. -/
inductive NoCustom (ω : Type)

instance : StageBehaviour (NoCustom ω) ω where
  kind := nofun

/-- Put stages in a row, each at a place of its own. -/
def Chain.ofParts [StageBehaviour κ ω] (parts : List (Part ω)) : Except ChainError (Chain κ ω) :=
  (parts.map Part.stage).foldlM Chain.add {}

/-! ## Received events -/

/-- A world with a log of who has received what. -/
abbrev Logged (ω : Type) := List (StageKind × Event) × ω

/-- The listener, which first logs what it receives. -/
def Listener.logged (k : StageKind) (l : Listener ω) : Listener (Logged ω) where
  general e s :=
    let r := l.deliver e s.2
    (r.1, (s.1 ++ [(k, e)], r.2))

/-- The stage with what it receives logged, if it is a listener. -/
def Part.logged : Part ω → Part (Logged ω)
  | tracker t => .tracker t
  | listener k l => .listener k (l.logged k)

/-! ## What is done to a chain -/

/-- A change of places. -/
inductive Restack
  | shadow (kind : StageKind)
  | pop (kind : StageKind)
  | shadowAll
  | restoreAll
deriving DecidableEq

/-- An event is sent, or places are changed. -/
inductive Action
  | send (e : Event)
  | restack (r : Restack)

def Action.event? : Action → Option Event
  | send e => some e
  | restack _ => none

namespace Chain

variable [StageBehaviour κ ω]

/-- A change that is refused changes nothing. -/
def restack (c : Chain κ ω) : Restack → Chain κ ω
  | .shadow k => (c.shadow k).2
  | .pop k =>
    match c.pop k with
    | .ok (_, c') => c'
    | .error _ => c
  | .shadowAll => c.shadowAll
  | .restoreAll => c.restoreAll

/-- Do one after the other, up to the first event that fails. -/
def actAll (c : Chain κ ω) (w : ω) : List Action → Option (Delivered κ ω)
  | [] => some ⟨.ok (), c, w⟩
  | .restack r :: as => (c.restack r).actAll w as
  | .send e :: as =>
    match c.send e w with
    | none => none
    | some ⟨.ok _, c', w'⟩ => c'.actAll w' as
    | some failed => some failed

end Chain

/-! ## The ledger -/

namespace Tracker

/-- What an event that passes makes of a tracker. -/
def pass (t : Tracker) (e : Event) : Tracker := (t.before e).after e

theorem kind_before (t : Tracker) (e : Event) : (t.before e).kind = t.kind := by cases t <;> rfl

theorem kind_pass (t : Tracker) (e : Event) : (t.pass e).kind = t.kind := by cases t <;> rfl

theorem fresh?_pass (t : Tracker) (e : Event) : (t.pass e).fresh? = t.fresh? := by
  cases t <;> rfl

/-- What no event changes, a list of events does not change. -/
theorem foldl_pass {α : Type} {f : Tracker → α} (hf : ∀ t e, f (pass t e) = f t) (es : List Event)
    (t : Tracker) : f (es.foldl pass t) = f t := by
  induction es generalizing t with
  | nil => rfl
  | cons e es ih => exact (ih (t.pass e)).trans (hf t e)

theorem kind_of_fresh? {t t' : Tracker} (h : t.fresh? = some t') : t'.kind = t.kind := by
  cases t <;> simp only [fresh?, Option.some.injEq, reduceCtorEq] at h <;> rw [← h] <;> rfl

end Tracker

/-- A tracker as it was put in place, and the events that have reached it since. -/
structure Instance (kind : StageKind) where
  origin : Tracker
  ofKind : origin.kind = kind
  reached : List Event := []

namespace Instance

variable {k : StageKind}

/-- The state that the events determine. -/
def state (i : Instance k) : Tracker := i.reached.foldl Tracker.pass i.origin

def note (e : Event) (i : Instance k) : Instance k := { i with reached := i.reached ++ [e] }

/-- An instance for a nested document, which no event has reached. -/
def fresh? (i : Instance k) : Option (Instance k) :=
  i.origin.fresh?.attach.map fun t =>
    { origin := t.1, ofKind := (Tracker.kind_of_fresh? t.2).trans i.ofKind }

theorem state_note (e : Event) (i : Instance k) : (i.note e).state = i.state.pass e :=
  List.foldl_concat ..

theorem kind_state (i : Instance k) : i.state.kind = k :=
  (Tracker.foldl_pass Tracker.kind_pass i.reached i.origin).trans i.ofKind

/-- The instance on offer has the state that the tracker offers. -/
theorem map_state_fresh? (i : Instance k) : i.fresh?.map state = i.state.fresh? := by
  rw [state, Tracker.foldl_pass Tracker.fresh?_pass, fresh?, Option.map_map]
  exact Option.attach_map_subtype_val _

end Instance

/-- A place: a listener, or trackers of one kind with the active one on top. -/
inductive Entry (ω : Type)
  | listener (kind : StageKind) (l : Listener ω)
  | trackers (kind : StageKind) (top : Instance kind) (below : List (Instance kind))

namespace Entry

def kind : Entry ω → StageKind
  | listener k _ | trackers k _ _ => k

/-- The place that an entry describes. -/
def place : Entry ω → Place κ ω
  | listener k l => ⟨k, .listener k l, []⟩
  | trackers k top below => ⟨k, .tracker top.state, below.map fun i => .tracker i.state⟩

def listener? : Entry ω → Option (Listener ω)
  | listener _ l => some l
  | trackers .. => none

def shadow : Entry ω → Entry ω
  | trackers k top below =>
    match top.fresh? with
    | some i => trackers k i (top :: below)
    | none => trackers k top below
  | x => x

def pop : Entry ω → Entry ω
  | trackers k _ (i :: below) => trackers k i below
  | x => x

/-- Only trackers that can be shadowed are removed. -/
def restore : Entry ω → Entry ω
  | trackers k top below =>
    if top.fresh?.isSome then (trackers k top below).pop else trackers k top below
  | x => x

end Entry

/-- The first instance at the place of a stage. -/
def Part.entry : Part ω → Entry ω
  | tracker t => .trackers t.kind { origin := t, ofKind := rfl } []
  | listener k l => .listener k l

/-- An entry for each place of a chain. -/
abbrev Ledger (ω : Type) := List (Entry ω)

namespace Ledger

/-- The chain that a ledger describes. -/
def chain (L : Ledger ω) : Chain κ ω := { places := L.map Entry.place }

def kinds (L : Ledger ω) : List StageKind := L.map Entry.kind

def listeners (L : Ledger ω) : List (Listener ω) := L.filterMap Entry.listener?

/-- An event reaches the places in order, up to and with the first listener that fails. -/
def note (e : Event) : Ledger ω → ω → Ledger ω
  | [], _ => []
  | .trackers k top below :: L, w => .trackers k (top.note e) below :: note e L w
  | .listener k l :: L, w =>
    match l.deliver e w with
    | (.ok _, w') => .listener k l :: note e L w'
    | (.error _, _) => .listener k l :: L

def restack (L : Ledger ω) : Restack → Ledger ω
  | .shadow k => L.map fun x => if x.kind = k then x.shadow else x
  | .pop k => L.map fun x => if x.kind = k then x.pop else x
  | .shadowAll => L.map Entry.shadow
  | .restoreAll => L.map Entry.restore

/-- Follow what is done to the chain, up to the first event that fails. -/
def actAll (L : Ledger ω) (w : ω) : List Action → Ledger ω
  | [] => L
  | .restack r :: as => (L.restack r).actAll w as
  | .send e :: as =>
    match (Listener.fanOut L.listeners).deliver e w with
    | (.ok _, w') => (L.note e w).actAll w' as
    | (.error _, _) => L.note e w

end Ledger

/-! ## Changes of places -/

namespace Entry

theorem kind_place (x : Entry ω) : (x.place : Place κ ω).kind = x.kind := by cases x <;> rfl

/-- A function of entries that does not look at the instances at a place. -/
def Fixed {α : Type} (f : Entry ω → α) : Prop :=
  ∀ k i is j js, f (.trackers k i is) = f (.trackers k j js)

namespace Fixed

variable {α : Type} {f : Entry ω → α}

theorem shadow (hf : Fixed f) (x : Entry ω) : f x.shadow = f x := by
  cases x with
  | listener k l => rfl
  | trackers k top below =>
    rw [Entry.shadow]
    split
    · exact hf ..
    · rfl

theorem pop (hf : Fixed f) (x : Entry ω) : f x.pop = f x := by
  rcases x with _ | ⟨k, top, _ | _⟩
  · rfl
  · rfl
  · exact hf ..

theorem restore (hf : Fixed f) (x : Entry ω) : f x.restore = f x := by
  cases x with
  | listener k l => rfl
  | trackers k top below =>
    rw [Entry.restore]
    split
    · exact hf.pop _
    · rfl

end Fixed

theorem place_shadow [StageBehaviour κ ω] (x : Entry ω) :
    (x.shadow.place : Place κ ω) = x.place.shadow := by
  cases x with
  | listener k l => rfl
  | trackers k top below =>
    have hfresh := top.map_state_fresh?
    rw [shadow]
    cases h : top.fresh? with
    | none =>
      rw [h] at hfresh
      simp [place, Place.shadow, Stage.isStackable, ← hfresh]
    | some i =>
      rw [h] at hfresh
      simp [place, Place.shadow, Stage.isStackable, Stage.spawn, Place.push, ← hfresh]

theorem place_pop (x : Entry ω) : (x.pop.place : Place κ ω) = x.place.dropTop := by
  rcases x with _ | ⟨k, top, _ | _⟩ <;> rfl

theorem place_restore [StageBehaviour κ ω] (x : Entry ω) :
    (x.restore.place : Place κ ω) = x.place.restore := by
  cases x with
  | listener k l => rfl
  | trackers k top below =>
    have hstackable : (Stage.tracker top.state : Stage κ ω).isStackable = top.fresh?.isSome := by
      rw [Stage.isStackable, ← top.map_state_fresh?, Option.isSome_map]
    rw [restore, Place.restore, place]
    dsimp only
    rw [hstackable]
    split
    · exact place_pop (trackers k top below)
    · rfl

/-- What the active stage of a place offers is of the kind of the place. -/
theorem kind_of_spawn [StageBehaviour κ ω] (x : Entry ω) {fresh : Stage κ ω}
    (h : x.place.top.spawn.2 = some fresh) : fresh.kind = x.kind := by
  cases x with
  | listener k l => cases h
  | trackers k top below =>
    obtain ⟨t, ht, rfl⟩ := Option.map_eq_some_iff.mp h
    exact (Tracker.kind_of_fresh? ht).trans top.kind_state

end Entry

namespace Ledger

theorem kinds_chain (L : Ledger ω) : (L.chain : Chain κ ω).kinds = L.kinds := by
  rw [chain, Chain.kinds, kinds, List.map_map]
  exact List.map_congr_left fun x _ => x.kind_place

/-- A change of the entry of a kind is one of the place of the kind. -/
theorem chain_modify (L : Ledger ω) (k : StageKind) {f : Entry ω → Entry ω}
    {g : Place κ ω → Place κ ω} (hfg : ∀ x : Entry ω, (f x).place = g x.place) :
    chain (L.map fun x => if x.kind = k then f x else x) = L.chain.modify k g := by
  rw [chain, chain, Chain.modify, List.map_map, List.map_map]
  refine congrArg Chain.mk (List.map_congr_left fun x _ => ?_)
  rw [Function.comp_apply, Function.comp_apply, x.kind_place]
  split
  · exact hfg x
  · rfl

/-- A change leaves each place what it is, apart from the instances there. -/
theorem map_restack {α : Type} {f : Entry ω → α} (hf : Entry.Fixed f) (L : Ledger ω)
    (r : Restack) : (restack L r).map f = L.map f := by
  cases r with
  | shadow k | pop k =>
    rw [restack, List.map_map]
    refine List.map_congr_left fun x _ => ?_
    rw [Function.comp_apply, apply_ite f]
    simp only [hf.shadow, hf.pop, ite_self]
  | shadowAll =>
    rw [restack, List.map_map]
    exact List.map_congr_left fun x _ => hf.shadow x
  | restoreAll =>
    rw [restack, List.map_map]
    exact List.map_congr_left fun x _ => hf.restore x

theorem listeners_eq (L : Ledger ω) : listeners L = (L.map Entry.listener?).filterMap id := by
  rw [List.filterMap_map]
  rfl

theorem kinds_restack (L : Ledger ω) (r : Restack) : kinds (restack L r) = kinds L :=
  map_restack (fun _ _ _ _ _ => rfl) L r

theorem listeners_restack (L : Ledger ω) (r : Restack) :
    listeners (restack L r) = listeners L := by
  rw [listeners_eq, listeners_eq, map_restack fun _ _ _ _ _ => rfl]

variable [StageBehaviour κ ω]

/-- A ledger with one entry for each kind follows every change of places. -/
theorem chain_restack (L : Ledger ω) (hL : L.kinds.Nodup) (r : Restack) :
    ((L.restack r).chain : Chain κ ω) = L.chain.restack r := by
  have hc : (L.chain : Chain κ ω).kinds.Nodup := by rwa [kinds_chain]
  cases r with
  | shadow k =>
    rw [Chain.restack, Chain.shadow_eq_modify hc]
    · exact chain_modify L k Entry.place_shadow
    · intro s fresh hs hfresh
      obtain ⟨p, hp, rfl⟩ := Option.map_eq_some_iff.mp hs
      obtain ⟨x, -, rfl⟩ := List.mem_map.mp (List.mem_of_find?_eq_some hp)
      rw [x.kind_of_spawn hfresh, ← x.kind_place (κ := κ)]
      exact Chain.kind_of_place? hp
  | pop k =>
    exact (chain_modify L k Entry.place_pop).trans (Chain.pop_eq_modify hc).symm
  | shadowAll =>
    rw [Chain.restack, Chain.shadowAll, restack, chain, chain, List.map_map, List.map_map]
    exact congrArg Chain.mk (List.map_congr_left fun x _ => x.place_shadow)
  | restoreAll =>
    rw [Chain.restack, Chain.restoreAll, restack, chain, chain, List.map_map, List.map_map]
    exact congrArg Chain.mk (List.map_congr_left fun x _ => x.place_restore)

end Ledger

/-! ## One event -/

namespace Ledger

/-- An event leaves each place what it is, apart from the instances there. -/
theorem map_note {α : Type} {f : Entry ω → α} (hf : Entry.Fixed f) (e : Event) :
    ∀ (L : Ledger ω) (w : ω), (note e L w).map f = L.map f
  | [], _ => rfl
  | .trackers k top below :: L, w => by
    rw [note, List.map_cons, List.map_cons, hf k (top.note e) below top below, map_note hf e L w]
  | .listener k l :: L, w => by
    rw [note]
    split
    · rw [List.map_cons, List.map_cons, map_note hf e L _]
    · rfl

theorem kinds_note (e : Event) (L : Ledger ω) (w : ω) : kinds (note e L w) = kinds L :=
  map_note (fun _ _ _ _ _ => rfl) e L w

theorem listeners_note (e : Event) (L : Ledger ω) (w : ω) :
    listeners (note e L w) = listeners L := by
  rw [listeners_eq, listeners_eq, map_note fun _ _ _ _ _ => rfl]

theorem map_kind_place (L : Ledger ω) :
    (L.map (Entry.place (κ := κ))).map Place.kind = kinds L := kinds_chain L

variable [StageBehaviour κ ω]

/-- From any place on, an event goes to the listeners as in a fan-out, and each tracker that it
reaches takes it into account before and after, whatever becomes of it further on. -/
theorem visit_places (e : Event) : ∀ (L : Ledger ω) (front : List (Place κ ω)) (visits : Nat)
    (w : ω), L.length ≤ visits → (front.map Place.kind ++ kinds L).Nodup →
      Chain.visit e visits (kinds L).head? { places := front ++ L.map Entry.place } w =
        some ⟨(Listener.deliverEach (listeners L) e w).1,
          { places := front ++ (note e L w).map Entry.place },
          (Listener.deliverEach (listeners L) e w).2⟩
  | [], front, visits, w, _, _ => by cases visits <;> rfl
  | .trackers k top below :: L, front, visits + 1, w, hvisits, hkinds => by
    let p : Place κ ω := (Entry.trackers k top below).place
    let q : Place κ ω := { p with top := .tracker (top.state.before e) }
    obtain ⟨hfront, hrest, hnodup⟩ := Chain.split_kinds hkinds
    have ih := visit_places e L (front ++ [q]) visits w (Nat.le_of_succ_le_succ hvisits)
      (hnodup q rfl)
    rw [List.append_assoc, List.append_assoc, List.singleton_append, List.singleton_append] at ih
    have hrest' : k ∉ ((note e L w).map (Entry.place (κ := κ))).map Place.kind := by
      rwa [map_kind_place, kinds_note]
    refine (Chain.visit_split (p := p) hfront (by rwa [map_kind_place]) rfl
      ((Tracker.kind_before _ e).trans top.kind_state) rfl).trans ?_
    rw [map_kind_place]
    refine (congrArg (Option.map _) ih).trans ?_
    rw [Option.map_some]
    refine congrArg some ((Chain.depart_split (p := q) hfront hrest' rfl rfl).trans ?_)
    simp only [note, List.map_cons, Entry.place, Instance.state_note]
    rfl
  | .listener k l :: L, front, visits + 1, w, hvisits, hkinds => by
    let p : Place κ ω := ⟨k, .listener k l, []⟩
    obtain ⟨hfront, hrest, hnodup⟩ := Chain.split_kinds hkinds
    have hdepart : ∀ (o : Outcome) (L' : Ledger ω) (w' : ω), kinds L' = kinds L →
        Chain.depart e k p.topLevel p.top ⟨o, { places := front ++ p :: L'.map Entry.place }, w'⟩ =
          ⟨o, { places := front ++ p :: L'.map Entry.place }, w'⟩ := fun o L' w' hL' =>
      Chain.depart_split (p := p) hfront (by rwa [map_kind_place, hL']) rfl rfl
    rcases hd : l.deliver e w with ⟨err | ⟨⟩, w'⟩
    · have harrive : p.top.arrive e { places := front ++ p :: L.map Entry.place } w =
          { stage := p.top, world := w', verdict := .fail err } := by
        simp only [p, Stage.arrive, hd]
      refine (Chain.visit_split (p := p) hfront (by rwa [map_kind_place]) harrive rfl rfl).trans ?_
      simp only [Option.map_some, note, listeners, List.filterMap_cons, Entry.listener?,
        Listener.deliverEach, Step.andThen, hd]
      exact congrArg some (hdepart (.error err) L w' rfl)
    · have ih := visit_places e L (front ++ [p]) visits w' (Nat.le_of_succ_le_succ hvisits)
        (hnodup p rfl)
      rw [List.append_assoc, List.append_assoc, List.singleton_append,
        List.singleton_append] at ih
      have harrive : p.top.arrive e { places := front ++ p :: L.map Entry.place } w =
          { stage := p.top, world := w' } := by
        simp only [p, Stage.arrive, hd]
      refine (Chain.visit_split (p := p) hfront (by rwa [map_kind_place]) harrive rfl rfl).trans ?_
      rw [map_kind_place]
      refine (congrArg (Option.map _) ih).trans ?_
      simp only [Option.map_some, note, listeners, List.filterMap_cons, Entry.listener?,
        Listener.deliverEach, Step.andThen, hd]
      exact congrArg some (hdepart _ (note e L w') _ (kinds_note e L w'))

/-- An event that is sent goes from the first place on. -/
theorem send_chain (e : Event) (L : Ledger ω) (hL : (kinds L).Nodup) (w : ω) :
    (chain L : Chain κ ω).send e w =
      some ⟨(Listener.deliverEach (listeners L) e w).1, chain (note e L w),
        (Listener.deliverEach (listeners L) e w).2⟩ := by
  have h := visit_places (κ := κ) e L [] L.length w (Nat.le_refl _) hL
  have hfirst : (chain L : Chain κ ω).firstKind? = (kinds L).head? := by
    rw [Chain.firstKind?, kinds_chain]
  rw [Chain.send, Chain.sendWithin, hfirst, chain, List.length_map]
  exact h

/-! ## All events and changes -/

/-- The chain that a ledger describes stays the one that the ledger describes, and the outcome and
the world are those of a fan-out. -/
theorem actAll_chain (as : List Action) : ∀ (L : Ledger ω) (w : ω), (kinds L).Nodup →
    (chain L : Chain κ ω).actAll w as =
      some ⟨((Listener.fanOut (listeners L)).deliverAll (as.filterMap Action.event?) w).1,
        chain (actAll L w as),
        ((Listener.fanOut (listeners L)).deliverAll (as.filterMap Action.event?) w).2⟩ := by
  induction as with
  | nil => exact fun _ _ _ => rfl
  | cons a as ih =>
    intro L w hL
    cases a with
    | restack r =>
      rw [Chain.actAll, ← chain_restack L hL, ih _ w (by rwa [kinds_restack]), listeners_restack]
      rfl
    | send e =>
      have hdeliver : (Listener.fanOut (listeners L)).deliver e w =
          Listener.deliverEach (listeners L) e w := rfl
      have hevents : (Action.send e :: as).filterMap Action.event? =
          e :: as.filterMap Action.event? := rfl
      rw [Chain.actAll, send_chain e L hL, actAll, hevents, Listener.deliverAll, Step.andThen,
        hdeliver]
      rcases Listener.deliverEach (listeners L) e w with ⟨err | ⟨⟩, w'⟩
      · rfl
      · dsimp only
        rw [ih _ w' (by rwa [kinds_note]), listeners_note]

end Ledger

/-! ## Main result -/

namespace Part

theorem kinds_entries (parts : List (Part ω)) :
    Ledger.kinds (parts.map entry) = parts.map kind := by
  rw [Ledger.kinds, List.map_map]
  refine List.map_congr_left fun p _ => ?_
  cases p <;> rfl

theorem listeners_entries (parts : List (Part ω)) :
    Ledger.listeners (parts.map entry) = listeners parts := by
  rw [Ledger.listeners, listeners, List.filterMap_map]
  refine congrArg (List.filterMap · parts) (funext fun p => ?_)
  cases p <;> rfl

theorem kind_logged (p : Part ω) : p.logged.kind = p.kind := by cases p <;> rfl

/-- Logging changes nothing but the log. -/
theorem deliverEach_logged (e : Event) : ∀ (parts : List (Part ω)) (s : Logged ω),
    ((Listener.deliverEach (listeners (parts.map logged)) e s).1,
      (Listener.deliverEach (listeners (parts.map logged)) e s).2.2) =
      Listener.deliverEach (listeners parts) e s.2
  | [], _ => rfl
  | .tracker _ :: parts, s => deliverEach_logged e parts s
  | .listener k l :: parts, s => by
    have ih := deliverEach_logged e parts (s.1 ++ [(k, e)], (l.deliver e s.2).2)
    have hlisteners : listeners (.listener k l :: parts) = l :: listeners parts := rfl
    have hlogged : listeners ((Part.listener k l :: parts).map logged) =
        l.logged k :: listeners (parts.map logged) := rfl
    have hdeliver : (l.logged k).deliver e s =
        ((l.deliver e s.2).1, (s.1 ++ [(k, e)], (l.deliver e s.2).2)) := rfl
    rw [hlisteners, hlogged, Listener.deliverEach, Listener.deliverEach, Step.andThen,
      Step.andThen, hdeliver]
    rcases hd : l.deliver e s.2 with ⟨err | ⟨⟩, w'⟩
    · rfl
    · rw [hd] at ih
      exact ih

/-- The log apart, listeners that log do the same with all events. -/
theorem deliverAll_logged (parts : List (Part ω)) (es : List Event) : ∀ s : Logged ω,
    (((Listener.fanOut (listeners (parts.map logged))).deliverAll es s).1,
      ((Listener.fanOut (listeners (parts.map logged))).deliverAll es s).2.2) =
      (Listener.fanOut (listeners parts)).deliverAll es s.2 := by
  induction es with
  | nil => exact fun _ => rfl
  | cons e es ih =>
    intro s
    have hone := deliverEach_logged e parts s
    have hdeliver : ∀ {τ : Type} (ls : List (Listener τ)) (w : τ),
        (Listener.fanOut ls).deliver e w = Listener.deliverEach ls e w := fun _ _ => rfl
    rw [Listener.deliverAll, Listener.deliverAll, Step.andThen, Step.andThen, hdeliver, hdeliver,
      ← hone]
    rcases Listener.deliverEach (listeners (parts.map logged)) e s with ⟨err | ⟨⟩, s'⟩
    · rfl
    · exact ih s'

end Part

namespace Chain

variable [StageBehaviour κ ω]

/-- Stages of distinct kinds make the chain that their ledger describes. -/
theorem ofParts_eq_ok_iff (parts : List (Part ω)) (c : Chain κ ω) :
    ofParts parts = .ok c ↔
      (parts.map Part.kind).Nodup ∧ c = Ledger.chain (parts.map Part.entry) := by
  have hkinds : (parts.map Part.stage).map (Stage.kind (κ := κ)) = parts.map Part.kind := by
    rw [List.map_map]
    refine List.map_congr_left fun p _ => ?_
    cases p <;> rfl
  have hplaces : (parts.map Part.stage).map (fun s : Stage κ ω => (⟨s.kind, s, []⟩ : Place κ ω)) =
      (parts.map Part.entry).map Entry.place := by
    rw [List.map_map, List.map_map]
    refine List.map_congr_left fun p _ => ?_
    cases p <;> rfl
  rw [ofParts, foldlM_add_eq_ok_iff _ (c := {}) List.nodup_nil, hkinds, hplaces]
  rfl

/-- A chain of trackers and listeners does with events what a fan-out over its listeners does,
whatever places are changed between them: the outcome and the world are the same, and so is the log
of who has received what. As this holds for any list of actions, it holds after each of them. The
state of each tracker is the one that the events determine which have reached it, also if a later
listener failed. -/
theorem actAll_eq_fanOut {parts : List (Part ω)} {c : Chain κ ω} (hc : ofParts parts = .ok c)
    (as : List Action) (w : ω) :
    ∃ d, c.actAll w as = some d ∧
      (d.outcome, d.world) =
        (Listener.fanOut (Part.listeners parts)).deliverAll (as.filterMap Action.event?) w ∧
      d.chain = Ledger.chain (Ledger.actAll (parts.map Part.entry) w as) ∧
      ∃ (c' : Chain (NoCustom (Logged ω)) (Logged ω)) (d' : Delivered _ _),
        ofParts (parts.map Part.logged) = .ok c' ∧ c'.actAll ([], w) as = some d' ∧
          (d'.outcome, d'.world) =
            (Listener.fanOut (Part.listeners (parts.map Part.logged))).deliverAll
              (as.filterMap Action.event?) ([], w) ∧
          (d'.outcome, d'.world.2) = (d.outcome, d.world) := by
  obtain ⟨hkinds, rfl⟩ := (ofParts_eq_ok_iff parts c).mp hc
  have hlogged : (parts.map Part.logged).map Part.kind = parts.map Part.kind := by
    rw [List.map_map]
    exact List.map_congr_left fun p _ => p.kind_logged
  have hrun := Ledger.actAll_chain (κ := κ) as (parts.map Part.entry) w
    (by rwa [Part.kinds_entries])
  have hrun' := Ledger.actAll_chain (κ := NoCustom (Logged ω)) as
    ((parts.map Part.logged).map Part.entry) ([], w) (by rwa [Part.kinds_entries, hlogged])
  rw [Part.listeners_entries] at hrun hrun'
  exact ⟨_, hrun, rfl, rfl, _, _, (ofParts_eq_ok_iff _ _).mpr ⟨by rwa [hlogged], rfl⟩, hrun', rfl,
    Part.deliverAll_logged parts _ ([], w)⟩

/-! ### A run that fails between two trackers -/

/-- Keeps what it receives. -/
def keeper : Listener (List EventKind) where
  general e := Step.update (· ++ [e.kind])

/-- Accepts everything but spaces. -/
def spaceRefuser : Listener (List EventKind) where
  general e := if e.kind = .leaf .space then Step.fail (.custom "space") else Step.skip

def refusing : List (Part (List EventKind)) :=
  [.tracker (.surroundings {}), .listener .printer keeper,
    .listener (.custom "spaces") spaceRefuser, .tracker (.newLineRun 0)]

/-- A paragraph is entered; in a nested document, there is a new line; then follow a space and
another new line. -/
def interrupted : List Action :=
  [.send (.enter (.ofBlock .paragraph ∅)), .restack .shadowAll, .send (.leaf (.ofBlock .newLine ∅)),
    .restack (.pop .surroundings), .send (.leaf (.ofBlock .space ∅)),
    .send (.leaf (.ofBlock .newLine ∅))]

/-- The space has reached the first tracker, but neither the last one nor has the event after it. -/
theorem actAll_interrupted :
    ∃ (c : Chain (NoCustom (List EventKind)) (List EventKind)) (d : Delivered _ _),
      ofParts refusing = .ok c ∧ c.actAll [] interrupted = some d ∧
        d.outcome = .error (.custom "space") ∧
        d.world = [.enter .paragraph, .leaf .newLine, .leaf .space] ∧
        d.chain.active? .surroundings =
          some (.tracker (.surroundings { paragraphs := 1, previous := some (.leaf .space) })) ∧
        d.chain.active? .newLineRun = some (.tracker (.newLineRun 1)) := by
  have hc : ofParts refusing = .ok (Ledger.chain (κ := NoCustom _) (refusing.map Part.entry)) :=
    (ofParts_eq_ok_iff _ _).mpr ⟨by decide, rfl⟩
  obtain ⟨d, hd, hpair, hchain, -⟩ := actAll_eq_fanOut hc interrupted []
  obtain ⟨houtcome, hworld⟩ := Prod.mk.inj hpair
  refine ⟨_, d, hc, hd, houtcome.trans (by rfl), hworld.trans (by rfl), ?_, ?_⟩
  · rw [hchain]
    rfl
  · rw [hchain]
    rfl

end Chain

end DocTree
