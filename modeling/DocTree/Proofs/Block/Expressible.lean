import DocTree.Proofs.Block.Positions
import DocTree.Proofs.Event.Nesting

/-!
# What events say of a tree

**The expressed part** (`Block.expressed`). Without the children of its leaves, and without the
parameters of the blocks whose events carry none, a tree has the same events, and it is valid. Valid
trees with the same events are the same (`injOn_eventsList`), so that the events of a tree tell its
expressed part and no more (`expressed_eq_iff`).

**The first fault.** The search for a fault goes through the positions in document order and stops
at the first block that has content of its own that no event carries (`fault?_eq_findSome?`). If there
is none, the tree is its own expressed part.

Main result: `fault?_expressed`.
-/

namespace DocTree.Block

/-! ## The expressed part -/

mutual
/-- The tree without the children of leaves, and without parameters that no event carries. -/
def expressed : Block → Block
  | ⟨k, cs, ps⟩ =>
    ⟨k, if k.tag.isContainer then expressedList cs else [],
      if k.tag.emitsParameters then ps else ∅⟩
def expressedList : List Block → List Block
  | [] => []
  | b :: bs => b.expressed :: expressedList bs
end

/-- What is left out makes no difference to the events. -/
theorem eventsList_expressedList (bs : List Block) :
    eventsList (expressedList bs) = eventsList bs := by
  induction bs using forestInduction with
  | nil => rfl
  | cons k cs ps bs ihc ihb =>
    rw [expressedList, eventsList, eventsList, ihb, expressed]
    congr 1
    cases k with
    | container c =>
      have hopening : Opening.ofBlock c (if c.tag.emitsParameters then ps else ∅) =
          Opening.ofBlock c ps := by
        unfold Opening.ofBlock
        split <;> simp
      show events ⟨.container c, expressedList cs, if c.tag.emitsParameters then ps else ∅⟩ = _
      rw [events, events, hopening, ihc]
    | leaf l =>
      have hatom :
          Atom.ofBlock l (if l.tag.emitsParameters then ps else ∅) = Atom.ofBlock l ps := by
        unfold Atom.ofBlock
        split <;> simp
      show events ⟨.leaf l, [], if l.tag.emitsParameters then ps else ∅⟩ = _
      rw [events, events, hatom]

theorem events_expressed (b : Block) : b.expressed.events = b.events := by
  have h := eventsList_expressedList [b]
  simpa [expressedList, eventsList] using h

/-- The expressed parts of blocks are valid. -/
theorem validForest_expressedList (bs : List Block) : ValidForest (expressedList bs) := by
  induction bs using forestInduction with
  | nil => exact fun _ h => absurd h List.not_mem_nil
  | cons k cs ps bs ihc ihb =>
    refine validForest_cons_iff.mpr ⟨⟨fun h => ?_, fun h => ?_⟩, ?_, ihb⟩
    · rw [h]
      rfl
    · rw [h]
      rfl
    · split
      · exact ihc
      · exact fun _ h => absurd h List.not_mem_nil

theorem valid_expressed (b : Block) : b.expressed.Valid :=
  validForest_expressedList [b] b.expressed List.mem_cons_self

/-- Nothing is left out of valid blocks. -/
theorem expressedList_of_valid {bs : List Block} (h : ValidForest bs) : expressedList bs = bs := by
  induction bs using forestInduction with
  | nil => rfl
  | cons k cs ps bs ihc ihb =>
    obtain ⟨⟨hleaf, hparams⟩, hcs, hbs⟩ := validForest_cons_iff.mp h
    rw [expressedList, expressed, ihc hcs, ihb hbs]
    congr 2
    · cases hk : k.tag.isContainer with
      | true => rfl
      | false => exact (hleaf hk).symm
    · cases hk : k.tag.emitsParameters with
      | true => rfl
      | false => exact (hparams hk).symm

theorem valid_iff_eq_expressed {b : Block} : b.Valid ↔ b = b.expressed := by
  constructor
  · intro h
    have hlist := expressedList_of_valid (List.forall_mem_singleton.mpr h : ∀ c ∈ [b], c.Valid)
    exact (List.cons.inj hlist).1.symm
  · intro h
    rw [h]
    exact b.valid_expressed

/-- The events of a tree tell its expressed part. -/
theorem expressed_eq_iff {a b : Block} : a.events = b.events ↔ a.expressed = b.expressed := by
  constructor
  · intro h
    have hlist : eventsList [a.expressed] = eventsList [b.expressed] := by
      simp [eventsList, events_expressed, h]
    have heq := injOn_eventsList (List.forall_mem_singleton.mpr a.valid_expressed)
      (List.forall_mem_singleton.mpr b.valid_expressed) hlist
    exact (List.cons.inj heq).1
  · intro h
    rw [← events_expressed a, h, events_expressed]

/-! ## The first fault -/

/-- The block is a leaf and has children. -/
def HidesChildren (b : Block) : Prop := b.isContainer = false ∧ b.children ≠ []

/-- The events of the block without its children. -/
def ownEvents (b : Block) : List Event := events ⟨b.kind, [], b.parameters⟩

/-- The block has parameters, and its events carry none. -/
def HidesParameters (b : Block) : Prop :=
  b.parameters ≠ ∅ ∧ ∀ e ∈ b.ownEvents, e.parameters? = none

instance (b : Block) : Decidable b.HidesChildren := inferInstanceAs (Decidable (_ ∧ _))

instance (b : Block) : Decidable b.HidesParameters := inferInstanceAs (Decidable (_ ∧ _))

theorem hidesParameters_iff {b : Block} :
    b.HidesParameters ↔ b.tag.emitsParameters = false ∧ b.parameters ≠ ∅ := by
  have hevents : (∀ e ∈ b.ownEvents, e.parameters? = none) ↔ b.tag.emitsParameters = false := by
    obtain ⟨k, cs, ps⟩ := b
    cases k with
    | container c =>
      simp [ownEvents, events, eventsList, Event.parameters?, Opening.ofBlock, tag, Kind.tag,
        Tag.emitsParameters]
    | leaf l =>
      simp [ownEvents, events, Event.parameters?, Atom.ofBlock, tag, Kind.tag, Tag.emitsParameters]
  rw [HidesParameters, hevents]
  exact and_comm

/-- At a position there is a block with content of its own that no event carries. -/
def hidesAt (b : Block) (p : Path) : Bool :=
  (b.get? p).any fun x => decide (x.HidesChildren ∨ x.HidesParameters)

/-- The fault of the block at a position, seen from the root. -/
def faultAt? (b : Block) (p : Path) : Option Fault :=
  (b.get? p).bind fun x => x.ownFault?.map fun f => { f with path := p }

theorem ownFault?_eq_some_iff {b : Block} {f : Fault} :
    b.ownFault? = some f ↔ (b.HidesChildren ∨ b.HidesParameters) ∧
      f = ⟨if b.HidesChildren then .leafWithChildren else .unemittedParameters, b.tag, []⟩ := by
  have hown : b.ownFault? = if b.HidesChildren then some ⟨.leafWithChildren, b.tag, []⟩
      else if b.HidesParameters then some ⟨.unemittedParameters, b.tag, []⟩ else none := by
    simp only [hidesParameters_iff]
    rfl
  rw [hown]
  by_cases hchildren : b.HidesChildren
  · rw [if_pos hchildren, if_pos hchildren, Option.some.injEq, eq_comm,
      and_iff_right (.inl hchildren)]
  · rw [if_neg hchildren, if_neg hchildren, or_iff_right hchildren]
    by_cases hparameters : b.HidesParameters
    · rw [if_pos hparameters, Option.some.injEq, eq_comm, and_iff_right hparameters]
    · rw [if_neg hparameters]
      exact iff_of_false nofun fun h => hparameters h.1

theorem faultAt?_eq_some_iff {b : Block} {p : Path} {f : Fault} :
    b.faultAt? p = some f ↔ ∃ x, b.get? p = some x ∧ (x.HidesChildren ∨ x.HidesParameters) ∧
      f = ⟨if x.HidesChildren then .leafWithChildren else .unemittedParameters, x.tag, p⟩ := by
  rw [faultAt?, Option.bind_eq_some_iff]
  refine exists_congr fun x => and_congr_right fun _ => ?_
  rw [Option.map_eq_some_iff]
  simp only [ownFault?_eq_some_iff]
  constructor
  · rintro ⟨_, ⟨hx, rfl⟩, rfl⟩
    exact ⟨hx, rfl⟩
  · rintro ⟨hx, rfl⟩
    exact ⟨_, ⟨hx, rfl⟩, rfl⟩

theorem isSome_faultAt? (b : Block) (p : Path) : (b.faultAt? p).isSome = b.hidesAt p := by
  rw [Bool.eq_iff_iff, Option.isSome_iff_exists]
  simp only [faultAt?_eq_some_iff, hidesAt, Option.any_eq_true, decide_eq_true_eq]
  constructor
  · rintro ⟨_, x, hx, hides, -⟩
    exact ⟨x, hx, hides⟩
  · rintro ⟨x, hx, hides⟩
    exact ⟨_, x, hx, hides, rfl⟩

/-- A fault below a child is seen from the parent with the index of the child in front. -/
theorem faultAt?_cons {k : Kind} {ps : StringMap} (before : List Block) (c : Block)
    (after : List Block) (p : Path) :
    faultAt? ⟨k, before ++ c :: after, ps⟩ (before.length :: p) =
      (c.faultAt? p).map (Fault.below before.length) := by
  rw [faultAt?, get?_cons, List.getElem?_append_right (Nat.le_refl _), Nat.sub_self,
    List.getElem?_cons_zero, Option.bind_some, faultAt?, Option.map_bind]
  congr 1
  funext x
  rw [Function.comp_apply, Option.map_map]
  rfl

/-- The search of a tree goes through its positions if that of its children does. -/
theorem fault?_of_children {k : Kind} {cs : List Block} {ps : StringMap}
    (h : faultFrom? 0 cs = (pathsFrom 0 cs).findSome? (faultAt? ⟨k, cs, ps⟩)) :
    fault? ⟨k, cs, ps⟩ = (paths ⟨k, cs, ps⟩).findSome? (faultAt? ⟨k, cs, ps⟩) := by
  have hself : faultAt? ⟨k, cs, ps⟩ [] = ownFault? ⟨k, cs, ps⟩ := by
    rw [faultAt?, get?_nil, Option.bind_some]
    cases hown : ownFault? ⟨k, cs, ps⟩ with
    | none => rfl
    | some f =>
      obtain ⟨-, rfl⟩ := ownFault?_eq_some_iff.mp hown
      rfl
  rw [fault?, paths, List.findSome?_cons, hself, h]
  cases ownFault? ⟨k, cs, ps⟩ <;> rfl

/-- In siblings, the search goes through the positions of their parent, from the first one on. -/
theorem faultFrom?_eq_findSome? (bs : List Block) : ∀ (k : Kind) (ps : StringMap)
    (before : List Block), faultFrom? before.length bs =
      (pathsFrom before.length bs).findSome? (faultAt? ⟨k, before ++ bs, ps⟩) := by
  induction bs using forestInduction with
  | nil => exact fun _ _ _ => rfl
  | cons k cs ps bs ihc ihb =>
    intro k' ps' before
    have hfirst : ((paths ⟨k, cs, ps⟩).map (before.length :: ·)).findSome?
        (faultAt? ⟨k', before ++ ⟨k, cs, ps⟩ :: bs, ps'⟩) =
          (fault? ⟨k, cs, ps⟩).map (Fault.below before.length) := by
      rw [List.findSome?_map, fault?_of_children (ihc k ps []), List.map_findSome?]
      congr 1
      funext p
      exact faultAt?_cons before ⟨k, cs, ps⟩ bs p
    have hlater := ihb k' ps' (before ++ [⟨k, cs, ps⟩])
    rw [List.append_assoc, List.singleton_append, List.length_append,
      List.length_singleton] at hlater
    rw [pathsFrom, List.findSome?_append, hfirst, ← hlater, faultFrom?]
    cases fault? ⟨k, cs, ps⟩ <;> rfl

/-- The first fault is that of the first position that has one. -/
theorem fault?_eq_findSome? (b : Block) : b.fault? = b.paths.findSome? b.faultAt? := by
  obtain ⟨k, cs, ps⟩ := b
  exact fault?_of_children (faultFrom?_eq_findSome? cs k ps [])

theorem fault?_eq_some_iff {b : Block} {f : Fault} :
    b.fault? = some f ↔ b.paths.find? b.hidesAt = some f.path ∧ b.faultAt? f.path = some f := by
  rw [fault?_eq_findSome?, List.findSome?_eq_some_iff]
  constructor
  · rintro ⟨before, p, after, hpaths, hf, hbefore⟩
    obtain ⟨x, hx, hides, rfl⟩ := faultAt?_eq_some_iff.mp hf
    refine ⟨List.find?_eq_some_iff_append.mpr ⟨?_, before, after, hpaths, fun q hq => ?_⟩, hf⟩
    · rw [← isSome_faultAt?, hf]
      rfl
    · rw [← isSome_faultAt?, hbefore q hq]
      rfl
  · rintro ⟨hfind, hf⟩
    obtain ⟨-, before, after, hpaths, hbefore⟩ := List.find?_eq_some_iff_append.mp hfind
    refine ⟨before, f.path, after, hpaths, hf, fun q hq => ?_⟩
    have hq := hbefore q hq
    rw [← isSome_faultAt?] at hq
    simpa using hq

/-! ## Main result -/

/-- **A tree is valid if its events say all of it.** Its expressed part has the same events, and the
same events as any other tree with this expressed part and no others. The tree is valid if it is its
own expressed part. If it is not, the fault is that of the first position, in document order, whose
block hides children or parameters; children of a leaf count first. -/
theorem fault?_expressed (b : Block) :
    b.expressed.events = b.events ∧
      (∀ a : Block, a.events = b.events ↔ a.expressed = b.expressed) ∧
      (b.fault? = none ↔ b = b.expressed) ∧
      ∀ f, b.fault? = some f ↔
        b.paths.find? b.hidesAt = some f.path ∧
          ∃ x, b.get? f.path = some x ∧ f.tag = x.tag ∧
            f.cause = if x.HidesChildren then .leafWithChildren else .unemittedParameters := by
  refine ⟨b.events_expressed, fun _ => expressed_eq_iff, valid_iff_eq_expressed, fun f => ?_⟩
  rw [fault?_eq_some_iff, faultAt?_eq_some_iff]
  refine and_congr_right fun hfind => exists_congr fun x => and_congr_right fun hx => ?_
  have hides : x.HidesChildren ∨ x.HidesParameters := by
    have h := List.find?_some hfind
    simpa [hidesAt, hx] using h
  obtain ⟨cause, tag, path⟩ := f
  rw [and_iff_right hides, Fault.mk.injEq]
  simp only [and_true]
  exact and_comm

end DocTree.Block
