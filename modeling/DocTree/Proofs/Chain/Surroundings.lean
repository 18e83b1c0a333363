import DocTree.Proofs.Chain.Watching
import DocTree.Proofs.Event.OpenBlocks

/-!
# Surroundings reflect the open blocks

The surroundings of an event are kept by counters and indices, which change from event to event.
This file says what they are at any event of a tree's traversal: those of the blocks that are open
there, on top of those that were open before the traversal.

**Sorts.** Blocks are told apart by sort (`BlockSort`), and lists by how their items are numbered
(`Numbering`).

**Indices.** Items are numbered by the list that is innermost when they are entered. `index` and
`number` go between the index of the last item and the number of items; a list that was open before
goes on from the number that it had.

**The invariant** (`Reflects`) ties a state to a list of open blocks and the number of events that
have been taken into account. An event first adds the block that it enters (`Reflects.before`), and
then removes the block that it leaves (`Reflects.after`).

Main result: `Station.traverse_surroundings`.
-/

namespace DocTree

/-! ## Sorts of blocks -/

/-- The sorts of blocks whose nesting is asked for. -/
inductive BlockSort
  | list | definitionList | quotation | paragraph | header | link | marker | format | term
  | description | table | cell
deriving DecidableEq, Repr

namespace BlockSort

def tags : BlockSort → List ContainerTag
  | list => [.list]
  | definitionList => [.definitionList]
  | quotation => [.quotation]
  | paragraph => [.paragraph]
  | header => [.header]
  | link => [.link]
  | marker => [.macroMarker]
  | format => [.format]
  | term => [.definitionTerm]
  | description => [.definitionDescription]
  | table => [.table]
  | cell => [.tableCell, .tableHeadCell]

def has (b : BlockSort) (t : ContainerTag) : Bool := b.tags.contains t

/-- How deep blocks of the sort are nested. -/
def depth : BlockSort → Surroundings → Nat
  | list => Surroundings.listDepth
  | definitionList => Surroundings.definitionDepth
  | quotation => Surroundings.quotationDepth
  | paragraph => Surroundings.paragraphs
  | header => Surroundings.headers
  | link => Surroundings.links
  | marker => Surroundings.markers
  | format => Surroundings.formats
  | term => Surroundings.terms
  | description => Surroundings.descriptions
  | table => Surroundings.tables
  | cell => Surroundings.cells

/-- Whether a block of the sort is open. -/
def isOpen : BlockSort → Surroundings → Bool
  | list => Surroundings.inList
  | definitionList => Surroundings.inDefinitionList
  | quotation => Surroundings.inQuotation
  | paragraph => Surroundings.inParagraph
  | header => Surroundings.inHeader
  | link => Surroundings.inLink
  | marker => Surroundings.inMarker
  | format => Surroundings.inFormat
  | term => Surroundings.inTerm
  | description => Surroundings.inDescription
  | table => Surroundings.inTable
  | cell => Surroundings.inCell

end BlockSort

/-- The sorts of lists, by their items. -/
inductive Numbering
  | items | definitions | lines
deriving DecidableEq, Repr

namespace Numbering

/-- The sort of the lists. -/
def lists : Numbering → BlockSort
  | items => .list
  | definitions => .definitionList
  | lines => .quotation

def itemTags : Numbering → List ContainerTag
  | items => [.listItem]
  | definitions => [.definitionTerm, .definitionDescription]
  | lines => [.quotationLine]

def hasItem (n : Numbering) (t : ContainerTag) : Bool := n.itemTags.contains t

/-- The indices of the current items of the open lists, innermost first. -/
def indices : Numbering → Surroundings → List (Option Nat)
  | items => Surroundings.lists
  | definitions => Surroundings.definitions
  | lines => Surroundings.quotations

/-- The index of the current item of the innermost list. -/
def itemIndex : Numbering → Surroundings → Option Nat
  | items => Surroundings.listItemIndex
  | definitions => Surroundings.definitionItemIndex
  | lines => Surroundings.quotationLineIndex

end Numbering

/-! ## One event -/

namespace Surroundings

/-- What an event that passes makes of the surroundings. -/
def pass (s : Surroundings) (e : Event) : Surroundings := (s.before e).after e

theorem length_nextItem (is : List (Option Nat)) : (nextItem is).length = is.length := by
  cases is <;> rfl

end Surroundings

theorem Tracker.foldl_pass_surroundings (s : Surroundings) (es : List Event) :
    es.foldl Tracker.pass (.surroundings s) = .surroundings (es.foldl Surroundings.pass s) :=
  List.foldl_hom Tracker.surroundings fun _ _ => rfl

namespace BlockSort

theorem isOpen_eq (b : BlockSort) (s : Surroundings) : b.isOpen s = decide (0 < b.depth s) := by
  cases b <;> rfl

theorem depth_enter (b : BlockSort) (s : Surroundings) (t : ContainerTag) :
    b.depth (s.enter t) = b.depth s + (b.has t).toNat := by
  cases t <;> cases b <;> first | rfl | exact Surroundings.length_nextItem _

theorem depth_leave (b : BlockSort) (s : Surroundings) (t : ContainerTag) :
    b.depth (s.leave t) = b.depth s - (b.has t).toNat := by
  cases t <;> cases b <;> first | rfl | exact List.length_tail

theorem depth_previous (b : BlockSort) (s : Surroundings) (k : Option EventKind) :
    b.depth { s with previous := k } = b.depth s := by
  cases b <;> rfl

end BlockSort

namespace Numbering

theorem depth_lists (n : Numbering) (s : Surroundings) :
    n.lists.depth s = (n.indices s).length := by
  cases n <;> rfl

theorem itemIndex_eq (n : Numbering) (s : Surroundings) :
    n.itemIndex s = Surroundings.currentItem (n.indices s) := by
  cases n <;> rfl

theorem indices_enter (n : Numbering) (s : Surroundings) (t : ContainerTag) :
    n.indices (s.enter t) =
      if n.lists.has t then none :: n.indices s
      else if n.hasItem t then Surroundings.nextItem (n.indices s)
      else n.indices s := by
  cases t <;> cases n <;> rfl

theorem indices_leave (n : Numbering) (s : Surroundings) (t : ContainerTag) :
    n.indices (s.leave t) = if n.lists.has t then (n.indices s).tail else n.indices s := by
  cases t <;> cases n <;> rfl

theorem indices_previous (n : Numbering) (s : Surroundings) (k : Option EventKind) :
    n.indices { s with previous := k } = n.indices s := by
  cases n <;> rfl

/-- An item is no list of its own sort. -/
theorem not_hasItem_of_has {n : Numbering} {t : ContainerTag} (h : n.lists.has t = true) :
    n.hasItem t = false := by
  cases n <;> cases t <;> simp_all [lists, BlockSort.has, BlockSort.tags, hasItem, itemTags]

end Numbering

/-! ## Indices and numbers of items -/

namespace Numbering

/-- The number of items up to the one of an index. -/
def number : Option Nat → Nat
  | none => 0
  | some i => i + 1

/-- The index of the last of some items. -/
def index : Nat → Option Nat
  | 0 => none
  | n + 1 => some n

theorem nextIndex_index (n : Nat) : Surroundings.nextIndex (index n) = index (n + 1) := by
  cases n <;> rfl

theorem index_number (i : Option Nat) : index (number i) = i := by
  cases i <;> rfl

/-- The indices of lists of which the innermost has had some more items. -/
def advance : List (Option Nat) → Nat → List (Option Nat)
  | [], _ => []
  | i :: is, count => index (number i + count) :: is

theorem advance_zero (is : List (Option Nat)) : advance is 0 = is := by
  cases is with
  | nil => rfl
  | cons i is => rw [advance, Nat.add_zero, index_number]

theorem nextItem_advance (is : List (Option Nat)) (count : Nat) :
    Surroundings.nextItem (advance is count) = advance is (count + 1) := by
  cases is with
  | nil => rfl
  | cons i is => rw [advance, Surroundings.nextItem, nextIndex_index, advance, Nat.add_assoc]

/-- The number of items of a list that are entered at one of the first events. -/
def itemsBegun (n : Numbering) (es : List Event) (outer : Option Nat) (count : Nat) : Nat :=
  begun es n.lists.has n.hasItem outer count

/-- The indices after the first events: of the lists among some open blocks, on top of those of the
lists that were open before. -/
def indicesAfter (n : Numbering) (es : List Event) (prior : List (Option Nat)) (opened : List Nat)
    (count : Nat) : List (Option Nat) :=
  (opened.filter (entersAt es n.lists.has)).map (fun j => index (n.itemsBegun es (some j) count)) ++
    advance prior (n.itemsBegun es none count)

section

variable {n : Numbering} {es : List Event} {prior : List (Option Nat)} {opened outer : List Nat}
  {i j : Nat} {o : Opening}

/-- An item counts for the innermost list. -/
theorem itemsBegun_innermost {list : Option Nat} (h : entersAt es n.hasItem i = true)
    (hinner : innermost es n.lists.has i = list) :
    n.itemsBegun es list (i + 1) = n.itemsBegun es list i + 1 := by
  rw [itemsBegun, begun_succ, beginsIn, h, hinner, beq_self_eq_true]
  rfl

/-- It does not count for any other. -/
theorem itemsBegun_of_ne {list : Option Nat} (h : innermost es n.lists.has i ≠ list) :
    n.itemsBegun es list (i + 1) = n.itemsBegun es list i := by
  rw [itemsBegun, begun_succ, beginsIn, beq_eq_false_iff_ne.mpr h, Bool.and_false]
  rfl

theorem itemsBegun_of_not_item (h : entersAt es n.hasItem i = false) (list : Option Nat) :
    n.itemsBegun es list (i + 1) = n.itemsBegun es list i := by
  rw [itemsBegun, begun_succ, beginsIn, h, Bool.false_and]
  rfl

theorem indicesAfter_of_not_item (h : entersAt es n.hasItem i = false) :
    n.indicesAfter es prior opened (i + 1) = n.indicesAfter es prior opened i := by
  simp only [indicesAfter, itemsBegun_of_not_item h]

theorem indicesAfter_cons_of_list (h : entersAt es n.lists.has j = true) {count : Nat} :
    n.indicesAfter es prior (j :: opened) count =
      index (n.itemsBegun es (some j) count) :: n.indicesAfter es prior opened count := by
  rw [indicesAfter, List.filter_cons_of_pos h]
  rfl

theorem indicesAfter_cons_of_not_list (h : entersAt es n.lists.has j = false) {count : Nat} :
    n.indicesAfter es prior (j :: opened) count = n.indicesAfter es prior opened count := by
  rw [indicesAfter, List.filter_cons_of_neg (by simp [h])]
  rfl

/-- A new list has no items. -/
theorem indicesAfter_enter_list (he : es[i]? = some (.enter o))
    (h : n.lists.has o.kind.tag = true) :
    n.indicesAfter es prior (i :: opened) (i + 1) = none :: n.indicesAfter es prior opened i := by
  have hlist : entersAt es n.lists.has i = true := (entersAt_enter he).trans h
  have hitem : entersAt es n.hasItem i = false := (entersAt_enter he).trans (not_hasItem_of_has h)
  have hnone : n.itemsBegun es (some i) i = 0 := begun_eq_zero (Nat.le_refl i)
  rw [indicesAfter_of_not_item hitem, indicesAfter_cons_of_list hlist, hnone]
  rfl

/-- An item changes the index of the innermost list alone. -/
theorem indicesAfter_enter_item (he : es[i]? = some (.enter o))
    (hlist : entersAt es n.lists.has i = false) (hitem : entersAt es n.hasItem i = true) :
    n.indicesAfter es prior (openBefore es i) (i + 1) =
      Surroundings.nextItem (n.indicesAfter es prior (openBefore es i) i) := by
  have hinner : innermost es n.lists.has i =
      ((openBefore es i).filter (entersAt es n.lists.has)).head? := by
    rw [innermost, openAt_enter he, List.find?_cons_of_neg (by simp [hlist]), List.head?_filter]
  have hsorted := (pairwise_openBefore es i).filter (entersAt es n.lists.has)
  rw [indicesAfter, indicesAfter]
  cases hlists : (openBefore es i).filter (entersAt es n.lists.has) with
  | nil =>
    rw [hlists, List.head?_nil] at hinner
    rw [itemsBegun_innermost hitem hinner]
    exact (nextItem_advance prior _).symm
  | cons j outer =>
    rw [hlists, List.head?_cons] at hinner
    rw [hlists] at hsorted
    have hprior : n.itemsBegun es none (i + 1) = n.itemsBegun es none i := by
      apply itemsBegun_of_ne
      simp [hinner]
    have houter : ∀ k ∈ outer, index (n.itemsBegun es (some k) (i + 1)) =
        index (n.itemsBegun es (some k) i) := by
      intro k hk
      have hkj : k < j := (List.pairwise_cons.mp hsorted).1 k hk
      rw [itemsBegun_of_ne]
      simp [hinner, hkj.ne']
    rw [List.map_cons, List.map_cons, List.map_congr_left houter, hprior,
      itemsBegun_innermost hitem hinner, ← nextIndex_index]
    rfl

end

end Numbering

/-! ## The invariant -/

/-- A state is that of some open blocks on top of a state before the traversal, when some of the
first events have been taken into account. -/
structure Reflects (s : Surroundings) (es : List Event) (opened : List Nat) (count : Nat)
    (v : Surroundings) : Prop where
  depth : ∀ b : BlockSort, b.depth v = b.depth s + opened.countP (entersAt es b.has)
  indices : ∀ n : Numbering, n.indices v = n.indicesAfter es (n.indices s) opened count

namespace Reflects

variable {s v : Surroundings} {es : List Event} {i : Nat} {e : Event}

theorem start (s : Surroundings) (es : List Event) : Reflects s es [] 0 s := by
  constructor
  · intro b
    rfl
  · intro n
    exact (Numbering.advance_zero _).symm

theorem previous {opened : List Nat} {count : Nat} (h : Reflects s es opened count v)
    (k : Option EventKind) : Reflects s es opened count { v with previous := k } := by
  refine ⟨fun b => ?_, fun n => ?_⟩
  · rw [b.depth_previous, h.depth b]
  · rw [n.indices_previous, h.indices n]

/-- An event adds the block that it enters. -/
theorem before (h : Reflects s es (openBefore es i) i v) (he : es[i]? = some e) :
    Reflects s es (openAt es i) (i + 1) (v.before e) := by
  cases e with
  | leaf a =>
    rw [openAt_leaf he]
    refine ⟨h.depth, fun n => ?_⟩
    rw [Numbering.indicesAfter_of_not_item (entersAt_leaf he)]
    exact h.indices n
  | exit o =>
    rw [openAt_exit he]
    refine ⟨h.depth, fun n => ?_⟩
    rw [Numbering.indicesAfter_of_not_item (entersAt_exit he)]
    exact h.indices n
  | enter o =>
    rw [openAt_enter he, Surroundings.before]
    constructor
    · intro b
      rw [b.depth_enter, h.depth b, List.countP_cons, entersAt_enter he, Nat.add_assoc]
      cases b.has o.kind.tag <;> rfl
    · intro n
      rw [n.indices_enter, h.indices n]
      by_cases hlist : n.lists.has o.kind.tag = true
      · rw [if_pos hlist, Numbering.indicesAfter_enter_list he hlist]
      · have hnot : entersAt es n.lists.has i = false := entersAt_enter_of_not he hlist
        rw [if_neg hlist, Numbering.indicesAfter_cons_of_not_list hnot]
        by_cases hitem : n.hasItem o.kind.tag = true
        · rw [if_pos hitem, Numbering.indicesAfter_enter_item he hnot]
          exact (entersAt_enter he).trans hitem
        · rw [if_neg hitem, Numbering.indicesAfter_of_not_item (entersAt_enter_of_not he hitem)]

/-- An event removes the block that it leaves. -/
theorem after {count : Nat} (hes : WellNested es) (h : Reflects s es (openAt es i) count v)
    (he : es[i]? = some e) : Reflects s es (openBefore es (i + 1)) count (v.after e) := by
  cases e with
  | leaf a =>
    rw [openAt_leaf he] at h
    rw [openBefore_leaf he]
    exact h.previous _
  | enter o =>
    rw [openAt_enter he] at h
    rw [openBefore_enter he]
    exact h.previous _
  | exit o =>
    obtain ⟨j, outer, hopen, hj⟩ := hes.openBefore_eq_cons he
    rw [openAt_exit he, hopen] at h
    rw [openBefore_exit he, hopen, List.tail_cons]
    constructor
    · intro b
      have hdepth := h.depth b
      rw [List.countP_cons, entersAt_enter hj] at hdepth
      rw [Surroundings.after, b.depth_previous, b.depth_leave, hdepth]
      cases b.has o.kind.tag
      · rfl
      · exact Nat.add_sub_cancel (b.depth s + _) 1
    · intro n
      rw [Surroundings.after, n.indices_previous, n.indices_leave, h.indices n]
      by_cases hlist : n.lists.has o.kind.tag = true
      · rw [if_pos hlist, Numbering.indicesAfter_cons_of_list ((entersAt_enter hj).trans hlist)]
        rfl
      · rw [if_neg hlist, Numbering.indicesAfter_cons_of_not_list (entersAt_enter_of_not hj hlist)]

end Reflects

/-- The surroundings before the event at a position reflect what is open there. -/
theorem reflects_openBefore {es : List Event} (hes : WellNested es) (s : Surroundings) {i : Nat}
    (hi : i ≤ es.length) :
    Reflects s es (openBefore es i) i ((es.take i).foldl Surroundings.pass s) := by
  apply foldl_take_induction (.start s es) ?_ hi
  intro i e v he h
  exact (h.before he).after hes he

/-! ## What is asked for -/

/-- The answers at an event, when a state was given before the traversal: the depths of blocks, and
the indices of items. -/
structure Placed (s : Surroundings) (es : List Event) (i : Nat) (v : Surroundings) : Prop where
  depth : ∀ b : BlockSort, b.depth v = b.depth s + openCount es b.has i
  isOpen : ∀ b : BlockSort, b.isOpen v = (b.isOpen s || decide (0 < openCount es b.has i))
  /-- Items are counted from the beginning of the innermost open list. -/
  itemIndex : ∀ n : Numbering, ∀ list, innermost es n.lists.has i = some list →
    n.itemIndex v = Numbering.index (n.itemsBegun es (some list) (i + 1))
  /-- A list that was open before goes on from the index that it had. -/
  itemIndex_prior : ∀ n : Numbering, innermost es n.lists.has i = none →
    n.itemIndex v =
      if n.lists.isOpen s then
        Numbering.index (Numbering.number (n.itemIndex s) + n.itemsBegun es none (i + 1))
      else none

/-- The answers after the traversal: depths are as before, and of the lists that were open before
only the innermost has another index. -/
structure Restored (s : Surroundings) (es : List Event) (v : Surroundings) : Prop where
  depth : ∀ b : BlockSort, b.depth v = b.depth s
  isOpen : ∀ b : BlockSort, b.isOpen v = b.isOpen s
  indices : ∀ n : Numbering,
    n.indices v = Numbering.advance (n.indices s) (n.itemsBegun es none es.length)

theorem Reflects.placed {s v : Surroundings} {es : List Event} {i : Nat}
    (h : Reflects s es (openAt es i) (i + 1) v) : Placed s es i v := by
  have hdepth : ∀ b : BlockSort, b.depth v = b.depth s + openCount es b.has i := h.depth
  have hinner : ∀ n : Numbering, innermost es n.lists.has i =
      ((openAt es i).filter (entersAt es n.lists.has)).head? := fun n => List.head?_filter.symm
  refine ⟨hdepth, fun b => ?_, fun n list hlist => ?_, fun n hnone => ?_⟩
  · rw [b.isOpen_eq, b.isOpen_eq, hdepth b, ← Bool.decide_or]
    exact decide_eq_decide.mpr (by omega)
  · obtain ⟨outer, houter⟩ := List.head?_eq_some_iff.mp ((hinner n).symm.trans hlist)
    rw [n.itemIndex_eq, h.indices n, Numbering.indicesAfter, houter]
    rfl
  · have hlists := List.head?_eq_none_iff.mp ((hinner n).symm.trans hnone)
    rw [n.itemIndex_eq, h.indices n, Numbering.indicesAfter, hlists, n.lists.isOpen_eq,
      n.depth_lists, n.itemIndex_eq]
    cases n.indices s <;> rfl

theorem Reflects.restored {s v : Surroundings} {es : List Event}
    (h : Reflects s es [] es.length v) : Restored s es v := by
  refine ⟨h.depth, fun b => ?_, h.indices⟩
  rw [b.isOpen_eq, b.isOpen_eq, h.depth b]
  rfl

/-! ## Traversals -/

namespace Station

variable {σ : Type}

/-- **The surroundings report the true position.** Whatever the state before the traversal of a
tree, a stage behind the tracker finds the answers `Placed` at each event that comes to it. If no
listener refuses an event, all come to it, and in the end the state is `Restored`. -/
theorem traverse_surroundings {front rest : List (Station σ)} {s : Surroundings}
    {c : Chain (Watcher σ) (Watched σ)}
    (hc : ((front ++ tracker (.surroundings s) :: rest).map stage).foldlM Chain.add {} = .ok c)
    (b : Block) (w : σ) :
    ∃ d, c.traverse ([], w) b = some d ∧
      (d.outcome, d.world.2) =
        (Listener.fanOut (listeners (front ++ tracker (.surroundings s) :: rest))).traverse b w ∧
      (∀ k, watcher k ∈ rest → ∀ i x, (d.world.1.filter (·.stage = k))[i]? = some x →
        b.events[i]? = some x.event ∧
          ∃ v, x.tracker? .surroundings = some (.surroundings v) ∧ Placed s b.events i v) ∧
      (d.outcome = .ok () →
        (∀ k, watcher k ∈ rest → (d.world.1.filter (·.stage = k)).map (·.event) = b.events) ∧
          ∃ v, d.chain.tracker? .surroundings = some (.surroundings v) ∧
            Restored s b.events v) := by
  have hes : WellNested b.events := balanced_iff.mp (balanced_events b)
  obtain ⟨d, hd, hfanOut, hseen, hend⟩ := traverse_sightings hc b w
  refine ⟨d, hd, hfanOut, fun k hk i x hx => ?_, fun hok => ⟨(hend hok).1, ?_⟩⟩
  · obtain ⟨he, htracker⟩ := hseen k hk i x hx
    have hi : i < b.events.length := (List.getElem?_eq_some_iff.mp he).1
    rw [Tracker.foldl_pass_surroundings] at htracker
    exact ⟨he, _, htracker, ((reflects_openBefore hes s hi.le).before he).placed⟩
  · have htracker := (hend hok).2
    have hreflects := reflects_openBefore hes s (Nat.le_refl b.events.length)
    rw [hes.openBefore_length, List.take_length] at hreflects
    rw [Tracker.foldl_pass_surroundings] at htracker
    exact ⟨_, htracker, hreflects.restored⟩

/-! ### A list within an item of an open list -/

/-- Two items, of which the first one holds a list with two items. -/
def listInItem : Block :=
  .group [.ofContainer .listItem
      [.ofContainer (.list .bulleted)
        [.ofContainer .listItem [.word "a"], .ofContainer .listItem [.word "b"]], .word "c"],
    .ofContainer .listItem []]

/-- Two lists are open, and the inner one has had five items. -/
def withinLists : Surroundings := { lists := [some 4, none], links := 1 }

def watchedLists : List (Station Unit) :=
  [tracker (.newLineRun 0)] ++ tracker (.surroundings withinLists) :: [watcher .printer]

theorem chain_watchedLists :
    (watchedLists.map stage).foldlM Chain.add {} = .ok (chain watchedLists) :=
  build_eq_ok_iff.mpr ⟨by decide, rfl⟩

/-- At the word after the inner list, the item of the outer one goes on. -/
theorem traverse_listInItem :
    ∃ (c : Chain (Watcher Unit) (Watched Unit)) (d : Chain.Delivered _ _),
      (watchedLists.map stage).foldlM Chain.add {} = .ok c ∧
        c.traverse ([], ()) listInItem = some d ∧ d.outcome = .ok () ∧
        (∃ x v, (d.world.1.filter (·.stage = .printer))[7]? = some x ∧
          x.tracker? .surroundings = some (.surroundings v) ∧ v.listDepth = 3 ∧
          v.listItemIndex = some 1) ∧
        (∃ x v, (d.world.1.filter (·.stage = .printer))[10]? = some x ∧
          x.tracker? .surroundings = some (.surroundings v) ∧ v.listDepth = 2 ∧
          v.listItemIndex = some 5 ∧ v.inLink = true) ∧
        ∃ v, d.chain.tracker? .surroundings = some (.surroundings v) ∧
          v.lists = [some 6, none] := by
  obtain ⟨d, hd, hfanOut, hseen, hend⟩ := traverse_surroundings chain_watchedLists listInItem ()
  have hwatch : watcher .printer ∈ [(watcher .printer : Station Unit)] := List.mem_singleton_self _
  have hok : d.outcome = .ok () := congrArg Prod.fst hfanOut
  obtain ⟨hevents, v, hv, hrestored⟩ := hend hok
  have hplaced : ∀ i e, listInItem.events[i]? = some e →
      ∃ x v, (d.world.1.filter (·.stage = .printer))[i]? = some x ∧
        x.tracker? .surroundings = some (.surroundings v) ∧
        Placed withinLists listInItem.events i v := by
    intro i e he
    obtain ⟨x, hx, -⟩ := exists_sighting (hevents .printer hwatch) he
    obtain ⟨-, v, hv, hp⟩ := hseen .printer hwatch i x hx
    exact ⟨x, v, hx, hv, hp⟩
  obtain ⟨x, v₁, hx, hv₁, hp₁⟩ := hplaced 7 _ rfl
  obtain ⟨y, v₂, hy, hv₂, hp₂⟩ := hplaced 10 _ rfl
  refine ⟨_, d, chain_watchedLists, hd, hok, ⟨x, v₁, hx, hv₁, ?_, ?_⟩, ⟨y, v₂, hy, hv₂, ?_, ?_, ?_⟩,
    v, hv, ?_⟩
  · exact hp₁.depth .list
  · exact hp₁.itemIndex .items 2 rfl
  · exact hp₂.depth .list
  · exact hp₂.itemIndex_prior .items rfl
  · exact hp₂.isOpen .link
  · exact hrestored.indices .items

end Station

end DocTree
