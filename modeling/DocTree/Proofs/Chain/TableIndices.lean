import DocTree.Proofs.Chain.Surroundings

/-!
# Indices of rows and cells

The surroundings keep one index of a row and one of a cell, for all tables that are open. The index
of a row starts again where a table is entered or left, that of a cell where a row is entered or a
table is left.

So both are those of the innermost table as long as no table has been nested in its current row
(`TablesPlaced.row`, `TablesPlaced.cell`). When a nested table is left, they start again, although
the row and the cell of the outer table go on (`Station.traverse_tableInCell`).

**The invariant** (`TableIndex.get_eq_index`) is about a stretch of events without a new start: the
index goes on with each block that counts.

Main result: `Station.traverse_tables`.
-/

namespace DocTree

/-! ## Where blocks are left, and counts from a position on -/

/-- A block of a sort is left at a position. -/
def exitsAt (es : List Event) (p : ContainerTag → Bool) (i : Nat) : Bool :=
  match es[i]? with
  | some (.exit o) => p o.kind.tag
  | _ => false

/-- The number of positions with a property, from one position on and before another. -/
def countFrom (P : Nat → Bool) (start n : Nat) : Nat :=
  (List.range n).countP fun k => decide (start ≤ k) && P k

theorem countFrom_self (P : Nat → Bool) (n : Nat) : countFrom P n n = 0 := by
  apply List.countP_eq_zero.mpr
  intro k hk
  have hkn : k < n := List.mem_range.mp hk
  simp only [Bool.and_eq_true, decide_eq_true_eq, not_and]
  omega

theorem countFrom_succ (P : Nat → Bool) {start n : Nat} (h : start ≤ n) :
    countFrom P start (n + 1) = countFrom P start n + (P n).toNat := by
  rw [countFrom, List.range_succ, List.countP_append, List.countP_singleton, decide_eq_true h,
    Bool.true_and, ← countFrom]
  cases P n <;> rfl

theorem countFrom_congr {P Q : Nat → Bool} {start n : Nat}
    (h : ∀ k, start ≤ k → k < n → P k = Q k) : countFrom P start n = countFrom Q start n := by
  apply List.countP_congr
  intro k hk
  have hkn : k < n := List.mem_range.mp hk
  by_cases hstart : start ≤ k
  · simp [h k hstart hkn]
  · simp [hstart]

/-! ## The two indices -/

def isTable (t : ContainerTag) : Bool := BlockSort.table.has t

def isRow (t : ContainerTag) : Bool := t == .tableRow

def isCell (t : ContainerTag) : Bool := BlockSort.cell.has t

inductive TableIndex
  | row | cell
deriving DecidableEq, Repr

namespace TableIndex

def get : TableIndex → Surroundings → Option Nat
  | row => Surroundings.row
  | cell => Surroundings.cell

/-- The blocks that are numbered. -/
def counts : TableIndex → ContainerTag → Bool
  | row => isRow
  | cell => isCell

/-- The blocks with which numbering starts again, when they are entered. -/
def restarts : TableIndex → ContainerTag → Bool
  | row => isTable
  | cell => isRow

variable (x : TableIndex) {s : Surroundings} {es : List Event} {e : Event} {i : Nat}

theorem get_enter (s : Surroundings) (t : ContainerTag) :
    x.get (s.enter t) =
      if x.restarts t then none
      else if x.counts t then Surroundings.nextIndex (x.get s)
      else x.get s := by
  cases t <;> cases x <;> rfl

theorem get_leave (s : Surroundings) (t : ContainerTag) :
    x.get (s.leave t) = if isTable t then none else x.get s := by
  cases t <;> cases x <;> rfl

theorem get_previous (s : Surroundings) (k : Option EventKind) :
    x.get { s with previous := k } = x.get s := by
  cases x <;> rfl

theorem get_before (he : es[i]? = some e) (s : Surroundings) :
    x.get (s.before e) =
      if entersAt es x.restarts i then none
      else if entersAt es x.counts i then Surroundings.nextIndex (x.get s)
      else x.get s := by
  cases e with
  | enter o =>
    rw [entersAt_enter he, entersAt_enter he]
    exact x.get_enter s o.kind.tag
  | exit o =>
    rw [entersAt_exit he, entersAt_exit he]
    rfl
  | leaf a =>
    rw [entersAt_leaf he, entersAt_leaf he]
    rfl

theorem get_after (he : es[i]? = some e) (s : Surroundings) :
    x.get (s.after e) = if exitsAt es isTable i then none else x.get s := by
  rw [exitsAt, he]
  cases e with
  | exit o => exact (x.get_previous _ _).trans (x.get_leave s o.kind.tag)
  | enter o => exact x.get_previous s _
  | leaf a => exact x.get_previous s _

end TableIndex

/-! ## A stretch of events -/

namespace TableIndex

variable {x : TableIndex} {s : Surroundings} {es : List Event} {e : Event} {start i : Nat}

/-- Numbering does not start again, from a position on and up to an event as later stages see it. -/
structure Steady (x : TableIndex) (es : List Event) (start i : Nat) : Prop where
  enter : ∀ k, start ≤ k → k ≤ i → entersAt es x.restarts k = false
  exit : ∀ k, start ≤ k → k < i → exitsAt es isTable k = false

theorem Steady.of_succ (h : Steady x es start (i + 1)) : Steady x es start i := by
  constructor
  · intro k hstart hk
    exact h.enter k hstart (by omega)
  · intro k hstart hk
    exact h.exit k hstart (by omega)

/-- Before a steady event goes on, it counts if it enters a block that is numbered. -/
theorem get_before_of_steady (h : Steady x es start i) (hstart : start ≤ i) (he : es[i]? = some e)
    {n : Nat} (hn : x.get s = Numbering.index (n + countFrom (entersAt es x.counts) start i)) :
    x.get (s.before e) =
      Numbering.index (n + countFrom (entersAt es x.counts) start (i + 1)) := by
  rw [x.get_before he, h.enter i hstart (Nat.le_refl i), countFrom_succ _ hstart, hn,
    if_neg Bool.false_ne_true]
  cases entersAt es x.counts i
  · rfl
  · exact Numbering.nextIndex_index _

/-- Over a steady stretch, the index goes on with each block that is numbered. -/
theorem get_eq_index (h : Steady x es start i) (hstart : start ≤ i) (hi : i ≤ es.length) :
    x.get ((es.take i).foldl Surroundings.pass s) =
      Numbering.index (Numbering.number (x.get ((es.take start).foldl Surroundings.pass s)) +
        countFrom (entersAt es x.counts) start i) := by
  induction i, hstart using Nat.le_induction with
  | base => rw [countFrom_self, Nat.add_zero, Numbering.index_number]
  | succ i hstart ih =>
    have he : es[i]? = some es[i] := List.getElem?_eq_getElem hi
    have hbefore := get_before_of_steady h.of_succ hstart he (ih h.of_succ (Nat.le_of_succ_le hi))
    rw [List.take_add_one, he, Option.toList_some, List.foldl_concat, Surroundings.pass,
      x.get_after he, h.exit i hstart (Nat.lt_succ_self i), if_neg Bool.false_ne_true]
    exact hbefore

/-- The index that later stages see at the end of a steady stretch. -/
theorem get_view (h : Steady x es start i) (hstart : start ≤ i) (he : es[i]? = some e) :
    x.get (((es.take i).foldl Surroundings.pass s).before e) =
      Numbering.index (Numbering.number (x.get ((es.take start).foldl Surroundings.pass s)) +
        countFrom (entersAt es x.counts) start (i + 1)) :=
  get_before_of_steady h hstart he
    (get_eq_index h hstart (List.getElem?_eq_some_iff.mp he).1.le)

/-- The last event before which, or at which, numbering started again. -/
structure LastStart (x : TableIndex) (es : List Event) (r i : Nat) : Prop where
  start : (entersAt es x.restarts r = true ∧ r ≤ i) ∨ (exitsAt es isTable r = true ∧ r < i)
  steady : Steady x es (r + 1) i

/-- A new start leaves no index. -/
theorem get_of_start {r : Nat} (hr : entersAt es x.restarts r = true ∨ exitsAt es isTable r = true)
    (he : es[r]? = some e) : x.get ((es.take (r + 1)).foldl Surroundings.pass s) = none := by
  rw [List.take_add_one, he, Option.toList_some, List.foldl_concat, Surroundings.pass,
    x.get_after he, x.get_before he]
  rcases hr with hr | hr
  · rw [if_pos hr, ite_self]
  · rw [if_pos hr]

theorem LastStart.get_view {r : Nat} (h : LastStart x es r i) (he : es[i]? = some e) :
    x.get (((es.take i).foldl Surroundings.pass s).before e) =
      Numbering.index (countFrom (entersAt es x.counts) (r + 1) (i + 1)) := by
  have hi : i < es.length := (List.getElem?_eq_some_iff.mp he).1
  have hri : r ≤ i := by
    rcases h.start with ⟨-, hri⟩ | ⟨-, hri⟩ <;> omega
  have hr : entersAt es x.restarts r = true ∨ exitsAt es isTable r = true :=
    h.start.imp And.left And.left
  have hnone := get_of_start (s := s) hr (List.getElem?_eq_getElem (Nat.lt_of_le_of_lt hri hi))
  rcases Nat.lt_or_eq_of_le hri with hlt | rfl
  · rw [TableIndex.get_view h.steady hlt he, hnone]
    exact congrArg Numbering.index (Nat.zero_add _)
  · -- The event at hand is the new start, so it enters a block.
    have henter : entersAt es x.restarts r = true := by
      rcases h.start with ⟨henter, -⟩ | ⟨-, hlt⟩
      · exact henter
      · exact absurd hlt (Nat.lt_irrefl r)
    rw [x.get_before he, if_pos henter, countFrom_self]
    rfl

end TableIndex

/-! ## The innermost table -/

section

variable {s : Surroundings} {es : List Event} {e : Event} {i j r : Nat}

/-- The row is the last one of a table that is entered up to an event. -/
structure LatestRow (es : List Event) (table row i : Nat) : Prop where
  begins : beginsIn es isTable isRow (some table) row = true
  le : row ≤ i
  latest : ∀ k ≤ i, row < k → beginsIn es isTable isRow (some table) k = false

theorem LatestRow.entersAt (h : LatestRow es j r i) : entersAt es isRow r = true :=
  (Bool.and_eq_true_iff.mp h.begins).1

theorem LatestRow.innermost (h : LatestRow es j r i) : innermost es isTable r = some j :=
  eq_of_beq (Bool.and_eq_true_iff.mp h.begins).2

theorem not_isTable_of_isRow {t : ContainerTag} (h : isRow t = true) : isTable t = false := by
  obtain rfl : t = .tableRow := eq_of_beq h
  rfl

/-- No table is left between two events that have the same innermost one. -/
theorem exitsAt_of_innermost {k : Nat} (hes : WellNested es) (hi : i < es.length)
    (hinner : innermost es isTable i = some j) (hk : innermost es isTable k = some j)
    (hki : k < i) : exitsAt es isTable k = false := by
  rw [exitsAt]
  split
  · exact hes.not_exit_of_innermost hi hinner hk hki ‹_›
  · rfl

/-- Without a nested table, rows are numbered from the enter of the table on. -/
theorem lastStart_row (hes : WellNested es) (hi : i < es.length)
    (hinner : innermost es isTable i = some j)
    (hnone : ∀ k ≤ i, j < k → entersAt es isTable k = false) :
    TableIndex.LastStart .row es j i := by
  have hj : entersAt es isTable j = true := entersAt_of_innermost hinner
  refine ⟨.inl ⟨hj, le_of_innermost hinner⟩, fun k hjk hki => hnone k hki hjk, fun k hjk hki => ?_⟩
  have hk := hes.innermost_of_le hi (innermost_self hj) hinner hnone (by omega) hki.le
  exact exitsAt_of_innermost hes hi hinner hk hki

/-- Then all rows that are entered are those of the table. -/
theorem countFrom_isRow (hes : WellNested es) (hi : i < es.length)
    (hinner : innermost es isTable i = some j)
    (hnone : ∀ k ≤ i, j < k → entersAt es isTable k = false) :
    countFrom (entersAt es isRow) (j + 1) (i + 1) = begun es isTable isRow (some j) (i + 1) := by
  have hj : entersAt es isTable j = true := entersAt_of_innermost hinner
  apply List.countP_congr
  intro k hk
  have hki : k ≤ i := Nat.lt_succ_iff.mp (List.mem_range.mp hk)
  rw [beginsIn]
  by_cases hjk : j + 1 ≤ k
  · have hk := hes.innermost_of_le hi (innermost_self hj) hinner hnone (by omega) hki
    simp [hjk, hk]
  · -- A row that is not entered after the table is none of its rows.
    suffices h : (entersAt es isRow k && innermost es isTable k == some j) = false by
      simp [hjk, h]
    by_cases hk : innermost es isTable k = some j
    · obtain rfl : k = j := Nat.le_antisymm (by omega) (le_of_innermost hk)
      rw [not_entersAt_of_entersAt (fun _ => not_isTable_of_isRow) hj, Bool.false_and]
    · rw [beq_eq_false_iff_ne.mpr hk, Bool.and_false]

/-- Without a table nested in the current row, cells are numbered from the enter of the row on. -/
theorem lastStart_cell (hes : WellNested es) (hi : i < es.length)
    (hinner : innermost es isTable i = some j) (hrow : LatestRow es j r i)
    (hnone : ∀ k ≤ i, r < k → entersAt es isTable k = false) :
    TableIndex.LastStart .cell es r i := by
  have hsame : ∀ k, r < k → k ≤ i → innermost es isTable k = some j := fun k hrk hki =>
    hes.innermost_of_le hi hrow.innermost hinner hnone hrk.le hki
  refine ⟨.inl ⟨hrow.entersAt, hrow.le⟩, fun k hrk hki => ?_, fun k hrk hki => ?_⟩
  · have hother := hrow.latest k hki hrk
    rwa [beginsIn, hsame k hrk hki, beq_self_eq_true, Bool.and_true] at hother
  · exact exitsAt_of_innermost hes hi hinner (hsame k hrk hki.le) hki

/-- Then all cells that are entered are those of the table. -/
theorem countFrom_isCell (hes : WellNested es) (hi : i < es.length)
    (hinner : innermost es isTable i = some j) (hrow : LatestRow es j r i)
    (hnone : ∀ k ≤ i, r < k → entersAt es isTable k = false) :
    countFrom (entersAt es isCell) (r + 1) (i + 1) =
      countFrom (beginsIn es isTable isCell (some j)) (r + 1) (i + 1) := by
  apply countFrom_congr
  intro k hrk hki
  have hk := hes.innermost_of_le hi hrow.innermost hinner hnone (by omega) (Nat.lt_succ_iff.mp hki)
  rw [beginsIn, hk, beq_self_eq_true, Bool.and_true]

/-! ## What is asked for -/

/-- The indices of a row and of a cell at an event, when a state was given before the traversal. -/
structure TablesPlaced (s : Surroundings) (es : List Event) (i : Nat) (v : Surroundings) :
    Prop where
  /-- Blocks are numbered since the last start, of whatever table they are. -/
  restarted : ∀ (x : TableIndex) (r : Nat), x.LastStart es r i →
    x.get v = Numbering.index (countFrom (entersAt es x.counts) (r + 1) (i + 1))
  /-- If there was none, numbering goes on from before the traversal. -/
  continued : ∀ x : TableIndex, x.Steady es 0 i →
    x.get v = Numbering.index (Numbering.number (x.get s) +
      countFrom (entersAt es x.counts) 0 (i + 1))
  /-- The index of the row is that of the innermost table while none has been nested in it. -/
  row : ∀ table, innermost es isTable i = some table →
    (∀ k ≤ i, table < k → entersAt es isTable k = false) →
    v.row = Numbering.index (begun es isTable isRow (some table) (i + 1))
  /-- The index of the cell is that of the latest row of the innermost table while none has been
  nested in that row. -/
  cell : ∀ table row, innermost es isTable i = some table → LatestRow es table row i →
    (∀ k ≤ i, row < k → entersAt es isTable k = false) →
    v.cell = Numbering.index
      (countFrom (beginsIn es isTable isCell (some table)) (row + 1) (i + 1))

theorem tablesPlaced (hes : WellNested es) (s : Surroundings) (he : es[i]? = some e) :
    TablesPlaced s es i (((es.take i).foldl Surroundings.pass s).before e) := by
  have hi : i < es.length := (List.getElem?_eq_some_iff.mp he).1
  refine ⟨fun x r hr => hr.get_view he, fun x hx => TableIndex.get_view hx (Nat.zero_le i) he,
    fun table hinner hnone => ?_, fun table row hinner hrow hnone => ?_⟩
  · rw [← countFrom_isRow hes hi hinner hnone]
    exact (lastStart_row hes hi hinner hnone).get_view he
  · rw [← countFrom_isCell hes hi hinner hrow hnone]
    exact (lastStart_cell hes hi hinner hrow hnone).get_view he

end

/-! ## Traversals -/

namespace Station

variable {σ : Type}

/-- **The indices of rows and cells.** Whatever the state before the traversal of a tree, a stage
behind the tracker finds the indices `TablesPlaced` at each event that comes to it, and all events
come to it if no listener refuses one. -/
theorem traverse_tables {front rest : List (Station σ)} {s : Surroundings}
    {c : Chain (Watcher σ) (Watched σ)}
    (hc : ((front ++ tracker (.surroundings s) :: rest).map stage).foldlM Chain.add {} = .ok c)
    (b : Block) (w : σ) :
    ∃ d, c.traverse ([], w) b = some d ∧
      (d.outcome, d.world.2) =
        (Listener.fanOut (listeners (front ++ tracker (.surroundings s) :: rest))).traverse b w ∧
      ∀ k, watcher k ∈ rest →
        (∀ i x, (d.world.1.filter (·.stage = k))[i]? = some x →
          b.events[i]? = some x.event ∧
            ∃ v, x.tracker? .surroundings = some (.surroundings v) ∧
              TablesPlaced s b.events i v) ∧
        (d.outcome = .ok () → (d.world.1.filter (·.stage = k)).map (·.event) = b.events) := by
  have hes : WellNested b.events := balanced_iff.mp (balanced_events b)
  obtain ⟨d, hd, hfanOut, hseen, hend⟩ := traverse_sightings hc b w
  refine ⟨d, hd, hfanOut, fun k hk => ⟨fun i x hx => ?_, fun hok => (hend hok).1 k hk⟩⟩
  obtain ⟨he, htracker⟩ := hseen k hk i x hx
  rw [Tracker.foldl_pass_surroundings] at htracker
  exact ⟨he, _, htracker, tablesPlaced hes s he⟩

/-! ### A table within a cell -/

/-- Two rows, of which the first one has two cells and a table in the first of them. -/
def tableInCell : Block :=
  .ofContainer .table
    [.ofContainer .tableRow
      [.ofContainer .tableCell [.ofContainer .table []], .ofContainer .tableCell []],
    .ofContainer .tableRow []]

def watchedTables : List (Station Unit) :=
  [tracker (.newLineRun 0)] ++ tracker (.surroundings {}) :: [watcher .printer]

theorem chain_watchedTables :
    (watchedTables.map stage).foldlM Chain.add {} = .ok (chain watchedTables) :=
  build_eq_ok_iff.mpr ⟨by decide, rfl⟩

/-- Up to the nested table, the indices are those of the outer one. -/
theorem traverse_untilNested :
    ∃ (c : Chain (Watcher Unit) (Watched Unit)) (d : Chain.Delivered _ _),
      (watchedTables.map stage).foldlM Chain.add {} = .ok c ∧
        c.traverse ([], ()) tableInCell = some d ∧
        ∃ x v, (d.world.1.filter (·.stage = .printer))[2]? = some x ∧
          x.tracker? .surroundings = some (.surroundings v) ∧ v.row = some 0 ∧
          v.cell = some 0 := by
  obtain ⟨d, hd, hfanOut, hall⟩ := traverse_tables chain_watchedTables tableInCell ()
  obtain ⟨hseen, hend⟩ := hall .printer (List.mem_singleton_self _)
  have hok : d.outcome = .ok () := congrArg Prod.fst hfanOut
  obtain ⟨x, hx, -⟩ := exists_sighting (i := 2) (hend hok) rfl
  obtain ⟨-, v, hv, hplaced⟩ := hseen 2 x hx
  have hrow : LatestRow tableInCell.events 0 1 2 := ⟨rfl, by decide, by decide⟩
  exact ⟨_, d, chain_watchedTables, hd, x, v, hx, hv, hplaced.row 0 rfl (by decide),
    hplaced.cell 0 1 rfl hrow (by decide)⟩

/-- After the nested table, the row of the outer one is its first, and the second cell is entered.
But there is no index of a row, and the index of the cell is that of a first one. The second row is
numbered as the first. -/
theorem traverse_tableInCell :
    ∃ (c : Chain (Watcher Unit) (Watched Unit)) (d : Chain.Delivered _ _),
      (watchedTables.map stage).foldlM Chain.add {} = .ok c ∧
        c.traverse ([], ()) tableInCell = some d ∧
        (∃ x v, (d.world.1.filter (·.stage = .printer))[6]? = some x ∧
          x.tracker? .surroundings = some (.surroundings v) ∧
          innermost tableInCell.events isTable 6 = some 0 ∧
          begun tableInCell.events isTable isRow (some 0) 7 = 1 ∧ v.row = none ∧
          LatestRow tableInCell.events 0 1 6 ∧
          countFrom (beginsIn tableInCell.events isTable isCell (some 0)) 2 7 = 2 ∧
          v.cell = some 0) ∧
        ∃ x v, (d.world.1.filter (·.stage = .printer))[9]? = some x ∧
          x.tracker? .surroundings = some (.surroundings v) ∧
          innermost tableInCell.events isTable 9 = some 0 ∧
          begun tableInCell.events isTable isRow (some 0) 10 = 2 ∧ v.row = some 0 := by
  obtain ⟨d, hd, hfanOut, hseen, hend⟩ := traverse_sightings chain_watchedTables tableInCell ()
  have hwatch : watcher .printer ∈ [(watcher .printer : Station Unit)] := List.mem_singleton_self _
  have hok : d.outcome = .ok () := congrArg Prod.fst hfanOut
  have hevents := (hend hok).1 .printer hwatch
  obtain ⟨x, hx, hxe⟩ := exists_sighting (i := 6) hevents rfl
  obtain ⟨y, hy, hye⟩ := exists_sighting (i := 9) hevents rfl
  obtain ⟨-, hv₁⟩ := hseen .printer hwatch 6 x hx
  obtain ⟨-, hv₂⟩ := hseen .printer hwatch 9 y hy
  rw [hxe] at hv₁
  rw [hye] at hv₂
  have hrow : LatestRow tableInCell.events 0 1 6 := ⟨rfl, by decide, by decide⟩
  exact ⟨_, d, chain_watchedTables, hd, ⟨x, _, hx, hv₁, rfl, rfl, rfl, hrow, rfl, rfl⟩,
    ⟨y, _, hy, hv₂, rfl, rfl, rfl⟩⟩

end Station

end DocTree
