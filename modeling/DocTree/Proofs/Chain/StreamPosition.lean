import DocTree.Proofs.Chain.Surroundings
import Mathlib.Data.List.DropRight

/-!
# Positions in a stream of events

Two trackers answer for any stream of events, also for one in which enters and exits do not match:
how many new lines end at an event, and of which kind the event before was. The first one counts an
event as it comes, the second one keeps its kind when it is back.

**The stream** (`Chain.sendEach`). Events are sent one after another, and the next one is sent even
if a stage has refused the one before.

**The reference** (`newLinesAt`, `kindBefore`). It knows only the list of events.

**Refusals.** A tracker gets an event back whether or not a later stage refuses it, so it is by all
events that a tracker changes if nothing before it refuses any (`Station.sendEach_views`). What
comes to a watcher depends on the stages in front of it (`Station.Reaches`).

Main result: `Station.sendEach_positions`.
-/

namespace DocTree

variable {σ : Type}

/-! ## Runs and predecessors -/

/-- The length of the run of new lines that ends at a position. -/
def newLinesAt (es : List Event) (i : Nat) : Nat :=
  ((es.take (i + 1)).rtakeWhile (·.kind = .leaf .newLine)).length

/-- The kind of the event before a position. -/
def kindBefore (es : List Event) : Nat → Option EventKind
  | 0 => none
  | i + 1 => es[i]?.map Event.kind

/-- The count of all events is the length of the run at their end. -/
theorem NewLineRun.foldl_before (es : List Event) :
    es.foldl before 0 = (es.rtakeWhile (·.kind = .leaf .newLine)).length := by
  induction es using List.reverseRecOn with
  | nil => rfl
  | append_singleton es e ih =>
    rw [List.foldl_concat, List.rtakeWhile_concat, ih, before]
    by_cases he : e.kind = .leaf .newLine <;> simp [he]

theorem NewLineRun.foldl_tracker_pass (n : Nat) (es : List Event) :
    es.foldl Tracker.pass (.newLineRun n) = .newLineRun (es.foldl before n) :=
  List.foldl_hom Tracker.newLineRun fun _ _ => rfl

/-- The count with which an event goes on includes the event. -/
theorem NewLineRun.before_foldl_pass {es : List Event} {i : Nat} {e : Event}
    (he : es[i]? = some e) :
    ((es.take i).foldl Tracker.pass (.newLineRun 0)).before e = .newLineRun (newLinesAt es i) := by
  have hcount : before ((es.take i).foldl before 0) e = newLinesAt es i := by
    rw [newLinesAt, ← foldl_before, List.take_add_one, he, Option.toList_some, List.foldl_concat]
  rw [foldl_tracker_pass, Tracker.before, hcount]

theorem Surroundings.previous_before (s : Surroundings) (e : Event) :
    (s.before e).previous = s.previous := by
  cases e with
  | exit | leaf => rfl
  | enter o =>
    rw [before]
    cases o.kind.tag <;> rfl

/-- Whatever kind was kept before, it is replaced by that of the last event. -/
theorem Surroundings.previous_foldl_pass {es : List Event} {i : Nat} (hi : i ≤ es.length) :
    ((es.take i).foldl pass {}).previous = kindBefore es i := by
  cases i with
  | zero => rfl
  | succ i =>
    have he : es[i]? = some es[i] := List.getElem?_eq_getElem hi
    rw [List.take_add_one, he, Option.toList_some, List.foldl_concat, kindBefore, he]
    rfl

/-- The kind that is kept when an event goes on is still that of the event before. -/
theorem Surroundings.before_foldl_pass {es : List Event} {i : Nat} {e : Event}
    (he : es[i]? = some e) :
    ∃ s : Surroundings, ((es.take i).foldl Tracker.pass (.surroundings {})).before e =
        .surroundings s ∧ s.previous = kindBefore es i := by
  have hi : i < es.length := (List.getElem?_eq_some_iff.mp he).1
  rw [Tracker.foldl_pass_surroundings, Tracker.before]
  exact ⟨_, rfl, (previous_before _ e).trans (previous_foldl_pass hi.le)⟩

/-! ## Streams -/

/-- What has become of an event, and what watchers have seen of it. -/
structure Chain.Sent where
  outcome : Outcome
  seen : List Sighting

/-- Send events one after another, each with an empty record. An event that fails is not the end. -/
def Chain.sendEach (c : Chain (Watcher σ) (Watched σ)) (w : σ) : List Event → Option (List Sent)
  | [] => some []
  | e :: es => (c.send e ([], w)).bind fun d =>
    (d.chain.sendEach d.world.2 es).map (⟨d.outcome, d.world.1⟩ :: ·)

namespace Station

/-- No event is refused in front of the watcher of a kind. -/
inductive Reaches (k : StageKind) : List (Station σ) → Prop
  | here {ahead : List (Station σ)} : Reaches k (watcher k :: ahead)
  | past {s : Station σ} {ahead : List (Station σ)} (hs : s.Accepts) (h : Reaches k ahead) :
      Reaches k (s :: ahead)

section

variable {e : Event} {k : StageKind} {s : Station σ} {behind front ahead rest : List (Station σ)}
  {w : σ}

theorem Reaches.append (hfront : ∀ s ∈ front, s.Accepts) (h : Reaches k rest) :
    Reaches k (front ++ rest) := by
  induction front with
  | nil => exact h
  | cons s front ih =>
    rw [List.forall_mem_cons] at hfront
    exact .past hfront.1 (ih hfront.2)

/-- A station that accepts an event lets it go on and gets it back. -/
theorem pass_cons_of_accepts (hs : s.Accepts) (e : Event) (behind ahead : List (Station σ))
    (w : σ) :
    ∃ w', (pass e behind (s :: ahead) w).outcome =
          (pass e (behind ++ [s.during e]) ahead w').outcome ∧
        (pass e behind (s :: ahead) w).stations =
          s.after e :: (pass e (behind ++ [s.during e]) ahead w').stations ∧
        (pass e behind (s :: ahead) w).seen =
          s.note e behind ahead ++ (pass e (behind ++ [s.during e]) ahead w').seen :=
  (pass_cons e behind s ahead w).resolve_right fun h => h.1 hs

/-- An event passes all stations that accept it, whatever becomes of it later. -/
theorem exists_stations_append (hfront : ∀ s ∈ front, s.Accepts) (e : Event)
    (behind rest : List (Station σ)) (w : σ) :
    ∃ behind' w', (pass e behind (front ++ rest) w).stations =
      front.map (after e) ++ (pass e behind' rest w').stations := by
  induction front generalizing behind w with
  | nil => exact ⟨behind, w, rfl⟩
  | cons s front ih =>
    rw [List.forall_mem_cons] at hfront
    obtain ⟨w', -, hstations, -⟩ := pass_cons_of_accepts hfront.1 e behind (front ++ rest) w
    obtain ⟨behind', w'', hrest⟩ := ih hfront.2 (behind ++ [s.during e]) w'
    refine ⟨behind', w'', ?_⟩
    rw [List.cons_append, hstations, hrest, List.map_cons, List.cons_append]

/-- Watchers stay, also if the event is refused. -/
theorem watcher_mem_pass (h : watcher k ∈ ahead) :
    watcher k ∈ (pass e behind ahead w).stations := by
  induction ahead generalizing behind w with
  | nil => exact absurd h List.not_mem_nil
  | cons s ahead ih =>
    rcases pass_cons e behind s ahead w with ⟨w', -, hstations, -⟩ | ⟨-, -, hstations, -⟩
    · rw [hstations]
      rcases List.mem_cons.mp h with rfl | h
      · exact List.mem_cons_self
      · exact List.mem_cons_of_mem _ (ih h)
    · rwa [hstations]

/-- An event comes to a watcher if nothing in front of it refuses events. -/
theorem Reaches.exists_seen (h : Reaches k ahead) (e : Event) (behind : List (Station σ)) (w : σ) :
    ∃ x ∈ (pass e behind ahead w).seen, x.stage = k := by
  induction h generalizing behind w with
  | here => exact ⟨_, List.mem_cons_self, rfl⟩
  | past hs _ ih =>
    obtain ⟨w', -, -, hseen⟩ := pass_cons_of_accepts hs e behind _ w
    obtain ⟨x, hx, hstage⟩ := ih (behind ++ [_]) w'
    rw [hseen]
    exact ⟨x, List.mem_append_right _ hx, hstage⟩

/-- So do later events. -/
theorem Reaches.pass (h : Reaches k ahead) : Reaches k (pass e behind ahead w).stations := by
  induction h generalizing behind w with
  | here => exact .here
  | past hs _ ih =>
    obtain ⟨w', -, hstations, -⟩ := pass_cons_of_accepts hs e behind _ w
    rw [hstations]
    exact .past ((accepts_after e _).mpr hs) ih

end

/-! ## All events of a stream -/

/-- What the watchers among some stations note of an event and a tracker. A watcher that the event
comes to notes them once. -/
structure Tells (kind : StageKind) (rest : List (Station σ)) (view : Event × Option Tracker)
    (r : Chain.Sent) : Prop where
  isPrefix : ∀ k, watcher k ∈ rest → reports kind k r.seen <+: [view]
  noted : ∀ k, watcher k ∈ rest → r.outcome = .ok () ∨ Reaches k rest →
    reports kind k r.seen = [view]

/-- One event: a watcher behind a tracker sees its view if the event comes through. -/
theorem tells_pass {e : Event} {t : Tracker} {front rest : List (Station σ)} {w : σ}
    (hkinds : ((front ++ rest).map kind).Nodup) (hfront : ∀ s ∈ front, s.Accepts)
    (ht : tracker t ∈ front) :
    Tells t.kind rest (e, some (t.before e))
      ⟨(pass e [] (front ++ rest) w).outcome, (pass e [] (front ++ rest) w).seen⟩ := by
  have hnotes : ∀ k, watcher k ∈ rest → Notes e (t.before e) k (pass e [] (front ++ rest) w) := by
    intro k hk
    obtain ⟨outer, inner, rfl⟩ := List.append_of_mem ht
    rw [List.append_assoc, List.cons_append] at hkinds ⊢
    exact notes_of_ahead hkinds (List.mem_append_right _ hk)
  rw [← t.kind_before e]
  refine ⟨fun k hk => (hnotes k hk).isPrefix, ?_⟩
  intro k hk hcome
  rcases hcome with hok | hreaches
  · exact (hnotes k hk).of_ok hok
  · obtain ⟨x, hx, hstage⟩ := (hreaches.append hfront).exists_seen e [] w
    exact (hnotes k hk).isPrefix.eq_of_length_le (List.length_pos_of_mem (mem_reports hx hstage))

/-- What is told to later stations is told to those that were there before. -/
theorem Tells.of_pass {kind : StageKind} {e : Event} {behind rest : List (Station σ)} {w : σ}
    {view : Event × Option Tracker} {r : Chain.Sent}
    (h : Tells kind (pass e behind rest w).stations view r) : Tells kind rest view r := by
  refine ⟨fun k hk => h.isPrefix k (watcher_mem_pass hk), ?_⟩
  intro k hk hcome
  exact h.noted k (watcher_mem_pass hk) (hcome.imp_right Reaches.pass)

/-- Watchers behind a tracker see its views, whatever becomes of the events later. -/
theorem sendEach_views {t : Tracker} {front rest : List (Station σ)} (es : List Event) (w : σ)
    (hkinds : ((front ++ rest).map kind).Nodup) (hfront : ∀ s ∈ front, s.Accepts)
    (ht : tracker t ∈ front) :
    ∃ rs, (chain (front ++ rest)).sendEach w es = some rs ∧
      List.Forall₂ (Tells t.kind rest) (t.views es) rs := by
  induction es generalizing t front rest w with
  | nil => exact ⟨[], rfl, .nil⟩
  | cons e es ih =>
    obtain ⟨behind, w', hstations⟩ := exists_stations_append hfront e [] rest w
    have hkinds' : ((front.map (after e) ++ (pass e behind rest w').stations).map kind).Nodup := by
      rwa [← hstations, map_kind_pass]
    have hfront' : ∀ s ∈ front.map (after e), s.Accepts := by
      intro s hs
      obtain ⟨s', hs', rfl⟩ := List.mem_map.mp hs
      exact (accepts_after e s').mpr (hfront s' hs')
    have ht' : tracker (t.pass e) ∈ front.map (after e) := List.mem_map_of_mem (f := after e) ht
    obtain ⟨rs, hrs, htells⟩ := ih (pass e [] (front ++ rest) w).world hkinds' hfront' ht'
    rw [t.kind_pass e] at htells
    refine ⟨_ :: rs, ?_, .cons (tells_pass (w := w) hkinds hfront ht) ?_⟩
    · rw [Chain.sendEach, send_stations hkinds, Option.bind_some, hstations, hrs]
      rfl
    · exact htells.imp fun _ _ => Tells.of_pass

/-- A sighting says what the report on the event says. -/
theorem Tells.sighting_eq {kind k : StageKind} {rest : List (Station σ)}
    {view : Event × Option Tracker} {r : Chain.Sent} (h : Tells kind rest view r)
    (hk : watcher k ∈ rest) {x : Sighting} (hx : x ∈ r.seen) (hstage : x.stage = k) :
    (x.event, x.tracker? kind) = view :=
  List.mem_singleton.mp ((h.isPrefix k hk).subset (mem_reports hx hstage))

/-- What is told of the event at a position. -/
theorem exists_tells {t : Tracker} {es : List Event} {rs : List Chain.Sent}
    {rest : List (Station σ)} (h : List.Forall₂ (Tells t.kind rest) (t.views es) rs) {i : Nat}
    {r : Chain.Sent} (hr : rs[i]? = some r) :
    ∃ e, es[i]? = some e ∧
      Tells t.kind rest (e, some (((es.take i).foldl Tracker.pass t).before e)) r := by
  obtain ⟨hi, rfl⟩ := List.getElem?_eq_some_iff.mp hr
  have hi' : i < (t.views es).length := h.length_eq ▸ hi
  have hview := (t.getElem?_views es i).symm.trans (List.getElem?_eq_getElem hi')
  obtain ⟨e, he, hpair⟩ := Option.map_eq_some_iff.mp hview
  exact ⟨e, he, hpair ▸ h.get hi' hi⟩

/-- The two answers at a position of a stream. -/
structure Positioned (es : List Event) (i : Nat) (x : Sighting) : Prop where
  event : es[i]? = some x.event
  /-- The new lines that end here. -/
  newLines : x.tracker? .newLineRun = some (.newLineRun (newLinesAt es i))
  /-- The kind of the event before, whatever has become of it. -/
  previous : ∃ s, x.tracker? .surroundings = some (.surroundings s) ∧ s.previous = kindBefore es i

/-- **Positions in a stream.** New trackers stand in a chain in any order, and no stage up to them
refuses events. Then a watcher behind them finds the answers `Positioned` at each event of any
stream, whatever other stages have made of the events before. Each event that is not refused comes
to the watcher once, and so does each other event that is not refused in front of the watcher. -/
theorem sendEach_positions {front rest : List (Station σ)} {c : Chain (Watcher σ) (Watched σ)}
    (hc : ((front ++ rest).map stage).foldlM Chain.add {} = .ok c)
    (hnewLines : tracker (.newLineRun 0) ∈ front)
    (hsurroundings : tracker (.surroundings {}) ∈ front) (hfront : ∀ s ∈ front, s.Accepts)
    (es : List Event) (w : σ) :
    ∃ rs, c.sendEach w es = some rs ∧ rs.length = es.length ∧
      ∀ i r, rs[i]? = some r → ∀ k, watcher k ∈ rest →
        (∀ x ∈ r.seen, x.stage = k → Positioned es i x) ∧
        (r.outcome = .ok () ∨ Reaches k rest → ∃ x, r.seen.filter (·.stage = k) = [x]) := by
  obtain ⟨hkinds, rfl⟩ := build_eq_ok_iff.mp hc
  obtain ⟨rs, hrs, hcounts⟩ := sendEach_views es w hkinds hfront hnewLines
  obtain ⟨rs', hrs', hpreviouses⟩ := sendEach_views es w hkinds hfront hsurroundings
  obtain rfl : rs = rs' := Option.some.inj (hrs.symm.trans hrs')
  refine ⟨rs, hrs, ?_, ?_⟩
  · have hlength := congrArg List.length (Tracker.map_fst_views (.newLineRun 0) es)
    rw [List.length_map] at hlength
    exact hcounts.length_eq.symm.trans hlength
  intro i r hr k hk
  obtain ⟨e, he, hcount⟩ := exists_tells hcounts hr
  obtain ⟨e', he', hprevious⟩ := exists_tells hpreviouses hr
  obtain rfl : e = e' := Option.some.inj (he.symm.trans he')
  rw [NewLineRun.before_foldl_pass he] at hcount
  obtain ⟨s, hs, hkind⟩ := Surroundings.before_foldl_pass he
  rw [hs] at hprevious
  constructor
  · intro x hx hstage
    obtain ⟨rfl, hnewLines⟩ := Prod.mk.inj (hcount.sighting_eq hk hx hstage)
    obtain ⟨-, hsurroundings⟩ := Prod.mk.inj (hprevious.sighting_eq hk hx hstage)
    exact ⟨he, hnewLines, s, hsurroundings, hkind⟩
  · intro hcome
    obtain ⟨x, hx, -⟩ := List.map_eq_singleton_iff.mp (hcount.noted k hk hcome)
    exact ⟨x, hx⟩

/-! ### A new line after a refused space -/

/-- Both trackers, with a listener between them that refuses nothing. -/
def trackedLines : List (Station (List EventKind)) :=
  [tracker (.surroundings {}), listener .printer Chain.keeper, tracker (.newLineRun 0)]

theorem accepts_trackedLines : ∀ s ∈ trackedLines, s.Accepts := by
  simp [trackedLines, Accepts, Chain.keeper, Listener.deliver, Step.update]

def watchedLines : List (Station (List EventKind)) :=
  trackedLines ++ [watcher (.custom "probe"), listener (.custom "spaces") Chain.spaceRefuser]

theorem chain_watchedLines :
    (watchedLines.map stage).foldlM Chain.add {} = .ok (chain watchedLines) :=
  build_eq_ok_iff.mpr ⟨by decide, rfl⟩

/-- Two new lines, a space, and another new line. -/
def spacedLines : List Event :=
  [.leaf (.ofBlock .newLine ∅), .leaf (.ofBlock .newLine ∅), .leaf (.ofBlock .space ∅),
    .leaf (.ofBlock .newLine ∅)]

/-- The second new line is counted with the first one. The last one is counted by itself, as it
comes after the space, which is refused only behind the trackers. -/
theorem sendEach_spacedLines :
    ∃ (c : Chain (Watcher (List EventKind)) (Watched (List EventKind))) (rs : List Chain.Sent),
      (watchedLines.map stage).foldlM Chain.add {} = .ok c ∧
        c.sendEach [] spacedLines = some rs ∧
        rs.map (·.outcome) = [.ok (), .ok (), .error (.custom "space"), .ok ()] ∧
        (∃ r x s, rs[1]? = some r ∧ r.seen.filter (·.stage = .custom "probe") = [x] ∧
          x.tracker? .newLineRun = some (.newLineRun 2) ∧
          x.tracker? .surroundings = some (.surroundings s) ∧
          s.previous = some (.leaf .newLine)) ∧
        (∃ r x s, rs[3]? = some r ∧ r.seen.filter (·.stage = .custom "probe") = [x] ∧
          x.tracker? .newLineRun = some (.newLineRun 1) ∧
          x.tracker? .surroundings = some (.surroundings s) ∧
          s.previous = some (.leaf .space)) := by
  obtain ⟨rs, hrs, hlength, hseen⟩ := sendEach_positions chain_watchedLines
    (by simp [trackedLines]) (by simp [trackedLines]) accepts_trackedLines spacedLines []
  have houtcomes : ((chain watchedLines).sendEach [] spacedLines).map (·.map (·.outcome)) =
      some [.ok (), .ok (), .error (.custom "space"), .ok ()] := by
    rfl
  rw [hrs, Option.map_some] at houtcomes
  have hnoted : ∀ i, i < 4 → ∃ r x, rs[i]? = some r ∧
      r.seen.filter (·.stage = .custom "probe") = [x] ∧ Positioned spacedLines i x := by
    intro i hi
    have hi' : i < rs.length := hi.trans_eq hlength.symm
    have hr : rs[i]? = some rs[i] := List.getElem?_eq_getElem hi'
    obtain ⟨hpositioned, honce⟩ := hseen i _ hr (.custom "probe") List.mem_cons_self
    obtain ⟨x, hx⟩ := honce (.inr .here)
    obtain ⟨hmem, hstage⟩ := List.mem_filter.mp (hx ▸ List.mem_singleton_self x)
    exact ⟨_, x, hr, hx, hpositioned x hmem (of_decide_eq_true hstage)⟩
  obtain ⟨r₁, x₁, hr₁, hx₁, -, hcount₁, s₁, hs₁, hkind₁⟩ := hnoted 1 (by decide)
  obtain ⟨r₃, x₃, hr₃, hx₃, -, hcount₃, s₃, hs₃, hkind₃⟩ := hnoted 3 (by decide)
  exact ⟨_, rs, chain_watchedLines, hrs, Option.some.inj houtcomes,
    ⟨r₁, x₁, s₁, hr₁, hx₁, hcount₁, hs₁, hkind₁⟩, ⟨r₃, x₃, s₃, hr₃, hx₃, hcount₃, hs₃, hkind₃⟩⟩

end Station

end DocTree
