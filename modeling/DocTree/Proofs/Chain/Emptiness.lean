import DocTree.Proofs.Block.Positions
import DocTree.Proofs.Chain.Watching
import DocTree.Proofs.Event.OpenBlocks

/-!
# Empty blocks

The tracker of emptiness keeps a flag for each open block, which tells whether the block has had
content. At any event of a tree's traversal the flags say which of the open blocks have had a child.

**Children.** Every event but an exit begins a block, which is a child of the innermost block that
is open before (`beginsChild`). What begins outside of all blocks of the tree is a child of the
block that was open before the traversal, if there was one.

**The flags** before an event and after it are those of the blocks that are open
(`Emptiness.flags`). An event that begins a child marks its parent first and adds a flag of its own
only then (`before_flags`); an exit marks nothing and takes the flag of its block away in the end
(`after_flags`).

**Blocks that are left.** The events between the enter and the exit of a block are those of its
children (`Block.exists_of_leftAt?`). They mark the block if there are any
(`Emptiness.foldl_eventsList`), so at its exit a block is found empty if it has no children.

Main result: `Station.traverse_emptiness`.
-/

namespace DocTree

/-! ## Children -/

/-- The event at a position begins a child of a block: of the one that is entered at a position, or
of the one that was open before the first event (`none`). -/
def beginsChild (es : List Event) (parent : Option Nat) (i : Nat) : Bool :=
  match es[i]? with
  | some e => !e.kind.isExit && (openBefore es i).head? == parent
  | none => false

/-- A child begins at one of the first events. -/
def hasChild (es : List Event) (parent : Option Nat) (count : Nat) : Bool :=
  (List.range count).any (beginsChild es parent)

section

variable {es : List Event} {parent : Option Nat} {e : Event} {o : Opening} {i j count : Nat}

theorem beginsChild_exit (he : es[i]? = some (.exit o)) : beginsChild es parent i = false := by
  rw [beginsChild, he]
  rfl

theorem beginsChild_of_not_exit (he : es[i]? = some e) (hkind : e.kind.isExit = false) :
    beginsChild es parent i = ((openBefore es i).head? == parent) := by
  rw [beginsChild, he]
  dsimp only
  rw [hkind, Bool.not_false, Bool.true_and]

theorem head?_of_beginsChild (h : beginsChild es parent i = true) :
    (openBefore es i).head? = parent := by
  rw [beginsChild] at h
  split at h
  · exact eq_of_beq (Bool.and_eq_true_iff.mp h).2
  · cases h

/-- A block has no children before it is entered. -/
theorem beginsChild_of_le (h : i ≤ j) : beginsChild es (some j) i = false := by
  apply Bool.eq_false_iff.mpr
  intro hchild
  have hj : j ∈ openBefore es i := List.mem_of_mem_head? (head?_of_beginsChild hchild)
  exact absurd (lt_of_mem_openBefore hj) (Nat.not_lt.mpr h)

theorem hasChild_succ :
    hasChild es parent (count + 1) = (hasChild es parent count || beginsChild es parent count) := by
  simp [hasChild, List.range_succ]

theorem hasChild_eq_false_iff :
    hasChild es parent (i + 1) = false ↔ ∀ k ≤ i, beginsChild es parent k = false := by
  rw [hasChild, List.any_eq_false]
  simp only [List.mem_range, Nat.lt_succ_iff, Bool.not_eq_true]

end

namespace Emptiness

/-! ## One event -/

/-- What an event that passes makes of the flags. -/
def pass (s : Emptiness) (e : Event) : Emptiness := (s.before e).after e

theorem foldl_tracker_pass (s : Emptiness) (es : List Event) :
    es.foldl Tracker.pass (.emptiness s) = .emptiness (es.foldl pass s) :=
  List.foldl_hom Tracker.emptiness fun _ _ => rfl

theorem markContent_markContent (s : Emptiness) : s.markContent.markContent = s.markContent := by
  cases s <;> rfl

theorem isCurrentEmpty_markContent (s : Emptiness) : s.markContent.isCurrentEmpty = false := by
  cases s <;> rfl

/-- The flags of some open blocks after the first events, over those that were there before. -/
def flags (es : List Event) (prior : Emptiness) (opened : List Nat) (count : Nat) : Emptiness :=
  opened.map (fun j => hasChild es (some j) count) ++
    if hasChild es none count then prior.markContent else prior

section

variable {es : List Event} {prior : Emptiness} {opened : List Nat} {e : Event} {i count : Nat}

theorem flags_of_exit {o : Opening} (he : es[i]? = some (.exit o)) :
    flags es prior opened (i + 1) = flags es prior opened i := by
  simp only [flags, hasChild_succ, beginsChild_exit he, Bool.or_false]

/-- A child that begins marks the innermost block, and no other. -/
theorem markContent_flags (he : es[i]? = some e) (hkind : e.kind.isExit = false) :
    (flags es prior (openBefore es i) i).markContent =
      flags es prior (openBefore es i) (i + 1) := by
  have hchild : ∀ parent, beginsChild es parent i = ((openBefore es i).head? == parent) :=
    fun _ => beginsChild_of_not_exit he hkind
  have hsorted := pairwise_openBefore es i
  unfold flags
  simp only [hasChild_succ, hchild]
  cases hopen : openBefore es i with
  | nil =>
    cases hasChild es none i
    · rfl
    · exact markContent_markContent prior
  | cons j outer =>
    rw [hopen] at hsorted
    have houter : ∀ k ∈ outer, (hasChild es (some k) i || ((j :: outer).head? == some k)) =
        hasChild es (some k) i := by
      intro k hk
      have hkj : k < j := (List.pairwise_cons.mp hsorted).1 k hk
      simp [hkj.ne']
    rw [List.map_cons, List.map_cons, List.map_congr_left houter]
    simp [markContent]

/-- Before an event goes on, it has marked the parent of what it begins. -/
theorem before_flags (he : es[i]? = some e) :
    (flags es prior (openBefore es i) i).before e = flags es prior (openAt es i) (i + 1) := by
  cases e with
  | leaf a =>
    rw [openAt_leaf he]
    exact markContent_flags he rfl
  | exit o =>
    rw [openAt_exit he, flags_of_exit he]
    rfl
  | enter o =>
    have hnone : hasChild es (some i) (i + 1) = false :=
      hasChild_eq_false_iff.mpr fun k hk => beginsChild_of_le hk
    rw [openAt_enter he, before, markContent_flags he rfl, flags, flags, List.map_cons, hnone]
    rfl

/-- When an event has gone on, the block that it leaves has no flag any more. -/
theorem after_flags (hes : WellNested es) (he : es[i]? = some e) :
    (flags es prior (openAt es i) count).after e =
      flags es prior (openBefore es (i + 1)) count := by
  cases e with
  | leaf a =>
    rw [openAt_leaf he, openBefore_leaf he]
    rfl
  | enter o =>
    rw [openAt_enter he, openBefore_enter he]
    rfl
  | exit o =>
    obtain ⟨j, outer, hopen, -⟩ := hes.openBefore_eq_cons he
    rw [openAt_exit he, openBefore_exit he, hopen]
    rfl

end

/-- The flags before the event at a position are those of the blocks that are open there. -/
theorem foldl_pass_eq {es : List Event} (hes : WellNested es) (prior : Emptiness) {i : Nat}
    (hi : i ≤ es.length) :
    (es.take i).foldl pass prior = flags es prior (openBefore es i) i := by
  apply foldl_take_induction (P := fun i s => s = flags es prior (openBefore es i) i) rfl ?_ hi
  intro i e s he hs
  rw [hs, pass, before_flags he, after_flags hes he]

/-! ## Blocks that are left -/

/-- Blocks that pass mark the block around them, if there are any. -/
theorem foldl_eventsList (bs : List Block) (s : Emptiness) :
    (Block.eventsList bs).foldl pass s = if bs = [] then s else s.markContent := by
  induction bs using Block.forestInduction generalizing s with
  | nil => rfl
  | cons k cs ps bs ihc ihb =>
    rw [if_neg (List.cons_ne_nil _ _), Block.eventsList, List.foldl_append, ihb]
    have hfirst : (Block.events ⟨k, cs, ps⟩).foldl pass s = s.markContent := by
      cases k with
      | leaf l => rfl
      | container c =>
        rw [Block.events, List.cons_append, List.foldl_cons, List.foldl_concat, ihc]
        by_cases hcs : cs = []
        · rw [if_pos hcs]
          rfl
        · rw [if_neg hcs]
          rfl
    rw [hfirst]
    by_cases hbs : bs = []
    · rw [if_pos hbs]
    · rw [if_neg hbs, markContent_markContent]

theorem foldl_events (b : Block) (s : Emptiness) : b.events.foldl pass s = s.markContent := by
  have h := foldl_eventsList [b] s
  rwa [Block.eventsList, Block.eventsList, List.append_nil, if_neg (List.cons_ne_nil b [])] at h

end Emptiness

namespace Block

/-- The position of the event at which the block at a place in the tree is left. Leaves are not
left, and blocks below a leaf are not delivered. -/
def leftAt? : Block → Path → Option Nat
  | ⟨.leaf _, _, _⟩, _ => none
  | ⟨.container _, cs, _⟩, [] => some ((eventsList cs).length + 1)
  | ⟨.container _, cs, _⟩, i :: p =>
    match cs[i]? with
    | some c => (c.leftAt? p).map fun n => (eventsList (cs.take i)).length + n + 1
    | none => none

/-- Between the enter and the exit of a block are the events of its children. -/
theorem exists_of_leftAt? {b : Block} {p : Path} {n : Nat} (h : b.leftAt? p = some n) :
    ∃ c cs ps before after, b.get? p = some ⟨.container c, cs, ps⟩ ∧
      b.events = before ++ .enter (.ofBlock c ps) :: eventsList cs ++
        .exit (.ofBlock c ps) :: after ∧
      n = before.length + (eventsList cs).length + 1 := by
  induction p generalizing b n with
  | nil =>
    obtain ⟨k, cs, ps⟩ := b
    cases k with
    | leaf l => cases h
    | container c =>
      refine ⟨c, cs, ps, [], [], rfl, rfl, ?_⟩
      simpa [leftAt?] using h.symm
  | cons i p ih =>
    obtain ⟨k, bs, qs⟩ := b
    cases k with
    | leaf l => cases h
    | container k =>
      rw [leftAt?] at h
      split at h
      · rename_i child hchild
        obtain ⟨m, hm, rfl⟩ := Option.map_eq_some_iff.mp h
        obtain ⟨c, cs, ps, before, after, hget, hevents, rfl⟩ := ih hm
        obtain ⟨hi, rfl⟩ := List.getElem?_eq_some_iff.mp hchild
        have hlist : eventsList bs =
            eventsList (bs.take i) ++ (bs[i].events ++ eventsList (bs.drop (i + 1))) := by
          rw [← eventsList, ← List.drop_eq_getElem_cons hi, ← eventsList_append,
            List.take_append_drop]
        refine ⟨c, cs, ps, .enter (.ofBlock k qs) :: eventsList (bs.take i) ++ before,
          after ++ eventsList (bs.drop (i + 1)) ++ [.exit (.ofBlock k qs)], ?_, ?_, ?_⟩
        · rw [get?_cons, hchild]
          exact hget
        · rw [events, hlist, hevents]
          simp
        · simp
          omega
      · cases h

/-- Every exit is that of a block of the tree. -/
theorem exists_leftAt?_of_mem {bs : List Block} {n : Nat} {o : Opening}
    (h : (eventsList bs)[n]? = some (.exit o)) :
    ∃ i c p m, bs[i]? = some c ∧ c.leftAt? p = some m ∧
      n = (eventsList (bs.take i)).length + m := by
  induction bs using forestInduction generalizing n with
  | nil => cases h
  | cons k cs ps bs ihc ihb =>
    rw [eventsList] at h
    by_cases hn : n < (events ⟨k, cs, ps⟩).length
    · rw [List.getElem?_append_left hn] at h
      suffices hself : ∃ p, leftAt? ⟨k, cs, ps⟩ p = some n by
        obtain ⟨p, hp⟩ := hself
        exact ⟨0, _, p, n, rfl, hp, (Nat.zero_add n).symm⟩
      cases k with
      | leaf l =>
        obtain rfl : n = 0 := Nat.lt_one_iff.mp hn
        cases h
      | container c =>
        rw [events, Pairing.getElem?_enclosed] at h
        by_cases hfirst : n = 0
        · rw [if_pos hfirst] at h
          cases h
        · by_cases hlast : n = (eventsList cs).length + 1
          · exact ⟨[], congrArg some hlast.symm⟩
          · rw [if_neg hfirst, if_neg hlast] at h
            obtain ⟨i, d, p, m, hd, hm, hpos⟩ := ihc h
            refine ⟨i :: p, ?_⟩
            rw [leftAt?, hd]
            dsimp only
            rw [hm, Option.map_some]
            exact congrArg some (by omega)
    · rw [List.getElem?_append_right (Nat.le_of_not_lt hn)] at h
      obtain ⟨i, d, p, m, hd, hm, hpos⟩ := ihb h
      refine ⟨i + 1, d, p, m, hd, hm, ?_⟩
      rw [List.take_succ_cons, eventsList, List.length_append]
      omega

theorem exists_leftAt?_of_exit {b : Block} {n : Nat} {o : Opening}
    (h : b.events[n]? = some (.exit o)) : ∃ p, b.leftAt? p = some n := by
  have hlist : (eventsList [b])[n]? = some (.exit o) := by
    rwa [eventsList, eventsList, List.append_nil]
  obtain ⟨i, c, p, m, hc, hm, rfl⟩ := exists_leftAt?_of_mem hlist
  cases i with
  | zero =>
    obtain rfl := Option.some.inj hc
    exact ⟨p, hm.trans (congrArg some (Nat.zero_add m).symm)⟩
  | succ i => cases hc

end Block

/-! ## What is asked for -/

namespace Emptiness

/-- The answers at an event of a tree, when some flags were there before the traversal. -/
structure Answered (prior : Emptiness) (b : Block) (i : Nat) (s : Emptiness) : Prop where
  /-- The innermost open block is empty as long as none of its children has begun. If no block of
  the tree is open, it is the one that was the innermost before. -/
  current : s.isCurrentEmpty = true ↔
    (∃ j, (openAt b.events i).head? = some j ∧
      ∀ k ≤ i, beginsChild b.events (some j) k = false) ∨
    (openAt b.events i = [] ∧ prior.isCurrentEmpty = true ∧
      ∀ k ≤ i, beginsChild b.events none k = false)
  /-- A block that is left here is empty if it has no children. -/
  left : ∀ p, b.leftAt? p = some i → ∃ c, b.get? p = some c ∧ b.events[i]? = c.exitEvent? ∧
    (s.isCurrentEmpty = true ↔ c.children = [])
  /-- At each exit, a block of the tree is left. -/
  exit : ∀ o, b.events[i]? = some (.exit o) → ∃ p, b.leftAt? p = some i

theorem isCurrentEmpty_flags_cons (es : List Event) (prior : Emptiness) (j : Nat)
    (outer : List Nat) (count : Nat) :
    (flags es prior (j :: outer) count).isCurrentEmpty = !hasChild es (some j) count := by
  rw [flags, List.map_cons]
  cases hasChild es (some j) count <;> rfl

theorem isCurrentEmpty_flags_nil (es : List Event) (prior : Emptiness) (count : Nat) :
    (flags es prior [] count).isCurrentEmpty =
      (prior.isCurrentEmpty && !hasChild es none count) := by
  rw [flags, List.map_nil, List.nil_append]
  cases hasChild es none count
  · rw [Bool.not_false, Bool.and_true]
    rfl
  · rw [Bool.not_true, Bool.and_false]
    exact isCurrentEmpty_markContent prior

theorem isCurrentEmpty_flags_iff (es : List Event) (prior : Emptiness) (i : Nat) :
    (flags es prior (openAt es i) (i + 1)).isCurrentEmpty = true ↔
      (∃ j, (openAt es i).head? = some j ∧ ∀ k ≤ i, beginsChild es (some j) k = false) ∨
      (openAt es i = [] ∧ prior.isCurrentEmpty = true ∧
        ∀ k ≤ i, beginsChild es none k = false) := by
  simp only [← hasChild_eq_false_iff]
  cases openAt es i with
  | nil => simp [isCurrentEmpty_flags_nil]
  | cons j outer => simp [isCurrentEmpty_flags_cons]

/-- At its exit, a block has been marked by its children. -/
theorem isCurrentEmpty_of_leftAt? {b : Block} {p : Path} {i : Nat} (h : b.leftAt? p = some i)
    (prior : Emptiness) :
    ∃ c, b.get? p = some c ∧ b.events[i]? = c.exitEvent? ∧
      (((b.events.take i).foldl pass prior).isCurrentEmpty = true ↔ c.children = []) := by
  obtain ⟨c, cs, ps, before, after, hget, hevents, rfl⟩ := Block.exists_of_leftAt? h
  have hlength : before.length + (Block.eventsList cs).length + 1 =
      (before ++ Event.enter (.ofBlock c ps) :: Block.eventsList cs).length := by
    rw [List.length_append, List.length_cons]
    rfl
  refine ⟨_, hget, ?_, ?_⟩
  · rw [hevents, hlength, List.getElem?_append_right (Nat.le_refl _), Nat.sub_self]
    rfl
  · rw [hevents, hlength, List.take_left, List.foldl_append, List.foldl_cons, foldl_eventsList]
    by_cases hcs : cs = []
    · rw [if_pos hcs]
      exact ⟨fun _ => hcs, fun _ => rfl⟩
    · rw [if_neg hcs, isCurrentEmpty_markContent]
      exact ⟨nofun, fun hnil => absurd hnil hcs⟩

theorem answered {b : Block} {i : Nat} {e : Event} (he : b.events[i]? = some e)
    (prior : Emptiness) :
    Answered prior b i (((b.events.take i).foldl pass prior).before e) := by
  have hes : WellNested b.events := balanced_iff.mp (balanced_events b)
  have hi : i < b.events.length := (List.getElem?_eq_some_iff.mp he).1
  refine ⟨?_, ?_, fun o ho => Block.exists_leftAt?_of_exit ho⟩
  · rw [foldl_pass_eq hes prior hi.le, before_flags he]
    exact isCurrentEmpty_flags_iff b.events prior i
  · intro p hp
    obtain ⟨c, hget, hexit, hempty⟩ := isCurrentEmpty_of_leftAt? hp prior
    refine ⟨c, hget, hexit, ?_⟩
    -- The event is an exit, which changes no flag before it goes on.
    obtain ⟨d, ds, qs, -, -, hget', -⟩ := Block.exists_of_leftAt? hp
    obtain rfl := Option.some.inj (hget.symm.trans hget')
    obtain rfl := Option.some.inj (he.symm.trans hexit)
    exact hempty

end Emptiness

/-! ## Traversals -/

namespace Station

variable {σ : Type}

/-- **Emptiness is answered exactly.** Whatever flags were there before the traversal of a tree, a
stage behind the tracker finds the answers `Emptiness.Answered` at each event that comes to it. If
no listener refuses an event, all come to it, and in the end the flags are those from before, the
innermost one being marked. -/
theorem traverse_emptiness {front rest : List (Station σ)} {s : Emptiness}
    {c : Chain (Watcher σ) (Watched σ)}
    (hc : ((front ++ tracker (.emptiness s) :: rest).map stage).foldlM Chain.add {} = .ok c)
    (b : Block) (w : σ) :
    ∃ d, c.traverse ([], w) b = some d ∧
      (d.outcome, d.world.2) =
        (Listener.fanOut (listeners (front ++ tracker (.emptiness s) :: rest))).traverse b w ∧
      (∀ k, watcher k ∈ rest → ∀ i x, (d.world.1.filter (·.stage = k))[i]? = some x →
        b.events[i]? = some x.event ∧
          ∃ v, x.tracker? .emptiness = some (.emptiness v) ∧ Emptiness.Answered s b i v) ∧
      (d.outcome = .ok () →
        (∀ k, watcher k ∈ rest → (d.world.1.filter (·.stage = k)).map (·.event) = b.events) ∧
          d.chain.tracker? .emptiness = some (.emptiness s.markContent)) := by
  obtain ⟨d, hd, hfanOut, hseen, hend⟩ := traverse_sightings hc b w
  refine ⟨d, hd, hfanOut, ?_, ?_⟩
  · intro k hk i x hx
    obtain ⟨he, htracker⟩ := hseen k hk i x hx
    rw [Emptiness.foldl_tracker_pass] at htracker
    exact ⟨he, _, htracker, Emptiness.answered he s⟩
  · intro hok
    have htracker := (hend hok).2
    rw [Emptiness.foldl_tracker_pass, Emptiness.foldl_events] at htracker
    exact ⟨(hend hok).1, htracker⟩

/-! ### Empty and filled paragraphs -/

/-- A section with an empty paragraph and one that holds a word. -/
def twoParagraphs : Block :=
  .ofContainer .sectionBlock [.paragraph [], .paragraph [.word "x"]]

/-- Two blocks are open, and only the outer one has had content. -/
def watchedParagraphs : List (Station Unit) :=
  [tracker (.newLineRun 0)] ++ tracker (.emptiness [false, true]) :: [watcher .printer]

theorem chain_watchedParagraphs :
    (watchedParagraphs.map stage).foldlM Chain.add {} = .ok (chain watchedParagraphs) :=
  build_eq_ok_iff.mpr ⟨by decide, rfl⟩

/-- The first paragraph is left empty; the second one and the section are not. -/
theorem traverse_twoParagraphs :
    ∃ (c : Chain (Watcher Unit) (Watched Unit)) (d : Chain.Delivered _ _),
      (watchedParagraphs.map stage).foldlM Chain.add {} = .ok c ∧
        c.traverse ([], ()) twoParagraphs = some d ∧ d.outcome = .ok () ∧
        (∃ x v, (d.world.1.filter (·.stage = .printer))[2]? = some x ∧
          x.tracker? .emptiness = some (.emptiness v) ∧ v.isCurrentEmpty = true) ∧
        (∃ x v, (d.world.1.filter (·.stage = .printer))[5]? = some x ∧
          x.tracker? .emptiness = some (.emptiness v) ∧ ¬ v.isCurrentEmpty = true) ∧
        (∃ x v, (d.world.1.filter (·.stage = .printer))[6]? = some x ∧
          x.tracker? .emptiness = some (.emptiness v) ∧ ¬ v.isCurrentEmpty = true) ∧
        d.chain.tracker? .emptiness = some (.emptiness [true, true]) := by
  obtain ⟨d, hd, hfanOut, hseen, hend⟩ :=
    traverse_emptiness chain_watchedParagraphs twoParagraphs ()
  have hwatch : watcher .printer ∈ [(watcher .printer : Station Unit)] := List.mem_singleton_self _
  have hok : d.outcome = .ok () := congrArg Prod.fst hfanOut
  obtain ⟨hevents, hafter⟩ := hend hok
  have hleft : ∀ i p c, twoParagraphs.leftAt? p = some i → twoParagraphs.get? p = some c →
      ∃ x v, (d.world.1.filter (·.stage = .printer))[i]? = some x ∧
        x.tracker? .emptiness = some (.emptiness v) ∧
        (v.isCurrentEmpty = true ↔ c.children = []) := by
    intro i p c hi hp
    obtain ⟨e, he⟩ : ∃ e, twoParagraphs.events[i]? = some e := by
      obtain ⟨_, _, _, _, _, -, hevents, rfl⟩ := Block.exists_of_leftAt? hi
      exact ⟨_, List.getElem?_eq_getElem (by rw [hevents]; simp; omega)⟩
    obtain ⟨x, hx, -⟩ := exists_sighting (hevents .printer hwatch) he
    obtain ⟨-, v, hv, ha⟩ := hseen .printer hwatch i x hx
    obtain ⟨c', hc', -, hempty⟩ := ha.left p hi
    obtain rfl := Option.some.inj (hp.symm.trans hc')
    exact ⟨x, v, hx, hv, hempty⟩
  obtain ⟨x, v₁, hx, hv₁, hempty₁⟩ := hleft 2 [0] _ rfl rfl
  obtain ⟨y, v₂, hy, hv₂, hempty₂⟩ := hleft 5 [1] _ rfl rfl
  obtain ⟨z, v₃, hz, hv₃, hempty₃⟩ := hleft 6 [] _ rfl rfl
  refine ⟨_, d, chain_watchedParagraphs, hd, hok, ⟨x, v₁, hx, hv₁, hempty₁.mpr rfl⟩,
    ⟨y, v₂, hy, hv₂, ?_⟩, ⟨z, v₃, hz, hv₃, ?_⟩, hafter⟩
  · rw [hempty₂]
    exact List.cons_ne_nil _ _
  · rw [hempty₃]
    exact List.cons_ne_nil _ _

end Station

end DocTree
