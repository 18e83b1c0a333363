import DocTree.Block.Search
import DocTree.Proofs.Block.Expressible

/-!
# Document order

There are four ways through a tree: the list of its positions, the search for all matching blocks,
the search for the first one, and the events. They meet the same blocks in the same order.

**The order** is that of the positions, which are sorted. `blocksAt` lists what is found at those of
them that satisfy a condition; this is the root, if its position does, and then what is found so in
the children, one after another (`blocksAt_mk`).

**Searches.** An axis covers the positions of one index, of at least one, or all (`Axis.covers`).
Along each axis the matching blocks are those found at the covered positions (`blocks_eq`), and the
first one is their head (`firstBlock?_eq_head?`).

**Events.** Every block has an event at which it is met (`firstEvent?`). The events that are no exits
are these, one for each position, if and only if no leaf hides children (`map_firstEvent?_iff`).

Main result: `paths_documentOrder`.
-/

namespace DocTree

/-- The positions that a search along an axis covers, seen from where it starts. -/
def Axis.covers : Axis → Path → Bool
  | .child, p => p.length == 1
  | .descendant, p => !p.isEmpty
  | .descendantOrSelf, _ => true

namespace Block

/-! ## Blocks at positions -/

/-- The blocks at the positions that satisfy a condition. -/
def blocksAt (P : Path → Bool) (b : Block) : List Block := (b.paths.filter P).filterMap b.get?

section
variable {P Q : Path → Bool}

/-- Siblings that stand behind others, when the condition is on what follows their index. -/
theorem filterMap_pathsFrom (hPQ : ∀ i p, P (i :: p) = Q p) (k : Kind) (ps : StringMap)
    (as cs : List Block) :
    ((pathsFrom as.length cs).filter P).filterMap (get? ⟨k, as ++ cs, ps⟩) =
      cs.flatMap (blocksAt Q) := by
  induction cs generalizing as with
  | nil => rfl
  | cons c cs ih =>
    have hrest := ih (as ++ [c])
    rw [List.length_append, List.length_singleton, List.append_assoc, List.singleton_append] at hrest
    have hhere : ∀ p, get? ⟨k, as ++ c :: cs, ps⟩ (as.length :: p) = c.get? p := by
      intro p
      rw [get?_cons, List.getElem?_append_right (Nat.le_refl _), Nat.sub_self]
      rfl
    rw [pathsFrom, List.filter_append, List.filterMap_append, hrest, List.flatMap_cons,
      List.filter_map, List.filterMap_map]
    congr 1
    rw [blocksAt, show P ∘ (as.length :: ·) = Q from funext (hPQ as.length)]
    exact List.filterMap_congr fun p _ => hhere p

/-- The root, if its position satisfies the condition, and what is found in the children. -/
theorem blocksAt_mk (hPQ : ∀ i p, P (i :: p) = Q p) (k : Kind) (cs : List Block) (ps : StringMap) :
    blocksAt P ⟨k, cs, ps⟩ =
      (if P [] then [⟨k, cs, ps⟩] else []) ++ cs.flatMap (blocksAt Q) := by
  have hbelow := filterMap_pathsFrom hPQ k ps [] cs
  rw [List.length_nil, List.nil_append] at hbelow
  rw [blocksAt, paths, List.filter_cons]
  split
  · rw [List.filterMap_cons_some (get?_nil _), hbelow]
    rfl
  · rw [hbelow, List.nil_append]

end

/-- All blocks of a tree in document order. -/
def inOrder (b : Block) : List Block := b.blocksAt fun _ => true

theorem inOrder_mk (k : Kind) (cs : List Block) (ps : StringMap) :
    inOrder ⟨k, cs, ps⟩ = ⟨k, cs, ps⟩ :: cs.flatMap inOrder :=
  blocksAt_mk (fun _ _ => rfl) k cs ps

/-- No position is listed in vain. -/
theorem map_get?_paths (b : Block) : b.paths.map b.get? = b.inOrder.map some := by
  have hfound : ∀ x ∈ b.paths.map b.get?, x.isSome = true := by
    intro x hx
    obtain ⟨p, hp, rfl⟩ := List.mem_map.mp hx
    exact (mem_paths b p).mp hp
  rw [inOrder, blocksAt, List.filter_true, List.map_filterMap_some_eq_filter_map_isSome,
    List.filter_eq_self.mpr hfound]

/-! ## Searches -/

section
variable (m : Block → Bool)

theorem collectList_eq (cs : List Block) : collectList m cs = (cs.flatMap inOrder).filter m := by
  induction cs using forestInduction with
  | nil => rfl
  | cons k cs ps bs ihc ihb =>
    rw [collectList, collect, ihb, ihc, List.flatMap_cons, List.filter_append, inOrder_mk,
      List.filter_cons]

theorem collect_eq (b : Block) : b.collect m = b.inOrder.filter m := by
  have h := collectList_eq m [b]
  rwa [collectList, collectList, List.append_nil, List.flatMap_singleton] at h

/-- The children are the blocks at the positions of one index. -/
theorem blocksAt_child (b : Block) : b.blocksAt Axis.child.covers = b.children := by
  have hnone : ∀ c : Block, c.blocksAt (fun _ => false) = [] := by
    intro c
    rw [blocksAt, List.filter_false, List.filterMap_nil]
  have hself : ∀ c : Block, c.blocksAt List.isEmpty = [c] := by
    intro c
    obtain ⟨k, cs, ps⟩ := c
    rw [blocksAt_mk (Q := fun _ => false) fun _ _ => rfl]
    simp [hnone]
  obtain ⟨k, cs, ps⟩ := b
  rw [blocksAt_mk (Q := List.isEmpty) fun _ p => by cases p <;> rfl, funext hself,
    List.flatMap_singleton']
  rfl

/-- A search finds, of the blocks at the positions that its axis covers, those that match. -/
theorem blocks_eq (b : Block) (axis : Axis) :
    b.blocks m axis = (b.blocksAt axis.covers).filter m := by
  cases axis with
  | child =>
    rw [blocksAt_child]
    rfl
  | descendant =>
    obtain ⟨k, cs, ps⟩ := b
    rw [blocksAt_mk (Q := fun _ => true) fun _ _ => rfl]
    exact collectList_eq m cs
  | descendantOrSelf => exact collect_eq m b

theorem firstList?_eq_head? (cs : List Block) :
    firstList? m cs = (collectList m cs).head? := by
  induction cs using forestInduction with
  | nil => rfl
  | cons k cs ps bs ihc ihb =>
    rw [firstList?, first?, collectList, collect, List.head?_append, ← ihb, ihc]
    by_cases hm : m ⟨k, cs, ps⟩
    · rw [if_pos hm, if_pos hm]
      rfl
    · rw [if_neg hm, if_neg hm]
      cases (collectList m cs).head? <;> rfl

theorem firstBlock?_eq_head? (b : Block) (axis : Axis) :
    b.firstBlock? m axis = (b.blocks m axis).head? := by
  cases axis with
  | child => exact List.head?_filter.symm
  | descendant => exact firstList?_eq_head? m b.children
  | descendantOrSelf =>
    have h := firstList?_eq_head? m [b]
    rw [firstList?, collectList, collectList, List.append_nil, firstList?] at h
    show b.first? m = (b.collect m).head?
    rw [← h]
    cases b.first? m <;> rfl

end

/-! ## Events -/

/-- The event at which a block is met first. -/
def firstEvent? (b : Block) : Option Event := b.enterEvent?.or b.leafEvent?

/-- The events of blocks, without those at which a container is left. -/
def firstEvents (bs : List Block) : List Event :=
  (eventsList bs).filter fun e => !e.kind.isExit

theorem firstEvents_container (c : Container) (cs : List Block) (ps : StringMap)
    (bs : List Block) :
    firstEvents (⟨.container c, cs, ps⟩ :: bs) =
      .enter (.ofBlock c ps) :: firstEvents cs ++ firstEvents bs := by
  simp [firstEvents, eventsList, events, Event.kind, EventKind.isExit]

theorem firstEvents_leaf (l : Leaf) (cs : List Block) (ps : StringMap) (bs : List Block) :
    firstEvents (⟨.leaf l, cs, ps⟩ :: bs) = .leaf (.ofBlock l ps) :: firstEvents bs := by
  simp [firstEvents, eventsList, events, Event.kind, EventKind.isExit]

/-- Where no leaf hides children, all blocks are met. -/
theorem map_firstEvents {bs : List Block} (h : ∀ b ∈ bs, b.All fun x => ¬ x.HidesChildren) :
    (firstEvents bs).map some = (bs.flatMap inOrder).map firstEvent? := by
  induction bs using forestInduction with
  | nil => rfl
  | cons k cs ps bs ihc ihb =>
    obtain ⟨hb, hbs⟩ := List.forall_mem_cons.mp h
    obtain ⟨hself, hcs⟩ := all_mk_iff.mp hb
    rw [List.flatMap_cons, inOrder_mk]
    cases k with
    | container c =>
      rw [firstEvents_container, List.cons_append, List.map_cons, List.map_append, ihc hcs, ihb hbs,
        List.cons_append, List.map_cons, List.map_append]
      rfl
    | leaf l =>
      obtain rfl : cs = [] := by
        by_contra hne
        exact hself ⟨rfl, hne⟩
      rw [firstEvents_leaf, List.map_cons, ihb hbs]
      rfl

/-- There is at most one event for each block, and fewer if a leaf hides children. -/
theorem length_firstEvents (bs : List Block) :
    (firstEvents bs).length ≤ (bs.flatMap inOrder).length ∧
      ((firstEvents bs).length = (bs.flatMap inOrder).length →
        ∀ b ∈ bs, b.All fun x => ¬ x.HidesChildren) := by
  induction bs using forestInduction with
  | nil => exact ⟨Nat.le_refl _, fun _ _ h => absurd h List.not_mem_nil⟩
  | cons k cs ps bs ihc ihb =>
    rw [List.forall_mem_cons, all_mk_iff, List.flatMap_cons, inOrder_mk, List.length_append,
      List.length_cons]
    cases k with
    | container c =>
      rw [firstEvents_container, List.length_append, List.length_cons]
      refine ⟨by omega, fun h => ⟨⟨fun hides => ?_, ihc.2 (by omega)⟩, ihb.2 (by omega)⟩⟩
      exact absurd hides.1 (by simp [isContainer, tag, Kind.tag, Tag.isContainer])
    | leaf l =>
      rw [firstEvents_leaf, List.length_cons]
      refine ⟨by omega, fun h => ?_⟩
      have hnone : (cs.flatMap inOrder).length = 0 := by omega
      have hcs : cs = [] := by
        cases cs with
        | nil => rfl
        | cons c cs =>
          obtain ⟨k, ds, qs⟩ := c
          rw [List.flatMap_cons, inOrder_mk] at hnone
          cases hnone
      exact ⟨⟨fun hides => hides.2 hcs, by simp [hcs]⟩, ihb.2 (by omega)⟩

/-- The blocks of a tree are met one by one in document order, unless a leaf hides some. -/
theorem map_firstEvent?_iff (b : Block) :
    ((b.events.filter fun e => !e.kind.isExit).map some =
        b.paths.map fun p => (b.get? p).bind firstEvent?) ↔
      b.All fun x => ¬ x.HidesChildren := by
  have hevents : b.events.filter (fun e => !e.kind.isExit) = firstEvents [b] := by
    rw [firstEvents, eventsList, eventsList, List.append_nil]
  have hblocks : b.paths.map (fun p => (b.get? p).bind firstEvent?) =
      ([b].flatMap inOrder).map firstEvent? := by
    have hbind := congrArg (List.map (Option.bind · firstEvent?)) (map_get?_paths b)
    rw [List.map_map, List.map_map] at hbind
    rw [List.flatMap_singleton]
    exact hbind
  rw [hevents, hblocks]
  constructor
  · intro h
    have hlength := congrArg List.length h
    rw [List.length_map, List.length_map] at hlength
    exact (length_firstEvents [b]).2 hlength b List.mem_cons_self
  · intro h
    exact map_firstEvents (List.forall_mem_singleton.mpr h)

/-! ## Main result -/

/-- **Positions, searches and events agree on the document order.** The positions of the blocks are
listed in lexicographic order. A search finds what matches at the positions that its axis covers, in
their order, and the search for one block finds the first of these. If no leaf hides children, the
events other than exits are those of the blocks at the positions; if one does, they are not. -/
theorem paths_documentOrder (b : Block) :
    b.paths.Pairwise (· < ·) ∧ (∀ p, p ∈ b.paths ↔ (b.get? p).isSome) ∧
      (∀ (m : Block → Bool) (axis : Axis),
        b.blocks m axis = ((b.paths.filter axis.covers).filterMap b.get?).filter m ∧
          b.firstBlock? m axis = (b.blocks m axis).head?) ∧
      ((b.events.filter fun e => !e.kind.isExit).map some =
          (b.paths.map fun p => (b.get? p).bind firstEvent?) ↔
        b.All fun x => ¬ x.HidesChildren) :=
  ⟨pairwise_paths b, mem_paths b, fun m axis => ⟨blocks_eq m b axis, firstBlock?_eq_head? m b axis⟩,
    map_firstEvent?_iff b⟩

end Block

end DocTree
