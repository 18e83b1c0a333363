import DocTree.Proofs.Block.Positions

/-!
# Replacement at a position

`replaceAt?` puts any number of blocks for one block, inside its parent. That is `setAt` with the
changed parent, in which the children before the index stay where they are and those behind it move
by the number of blocks, less the one that is replaced.

**The answer.** The root, and a position at which there is no block, are refused, and the tree stays
as it is. Everything else gives the block that was there.

**The frame** (`Replaced`). Positions that do not lead through the parent to the index or past it
(`Path.GoesThrough`) are those of the same blocks as before; only of the ancestors the subtrees have
changed. Later siblings are found at their new index, whole.

Main result: `replaceAt?_frame`.
-/

namespace DocTree

/-- A position leads through the block at `q` to a child of it at the index `i` or later. -/
def Path.GoesThrough (r q : Path) (i : Nat) : Prop := ∃ j s, i ≤ j ∧ r = q ++ j :: s

/-- Other positions are that of the parent, lead to an earlier child, or stand elsewhere. -/
theorem Path.cases_of_not_goesThrough {r q : Path} {i : Nat} (h : ¬ r.GoesThrough q i) :
    r = q ∨ (∃ j s, j < i ∧ r = q ++ j :: s) ∨ ¬ q <+: r := by
  by_cases hqr : q <+: r
  · obtain ⟨t, rfl⟩ := hqr
    cases t with
    | nil => exact .inl (List.append_nil q)
    | cons j s => exact .inr (.inl ⟨j, s, Nat.lt_of_not_le fun hij => h ⟨j, s, hij, rfl⟩, rfl⟩)
  · exact .inr (.inr hqr)

namespace Block

/-! ## Among the children -/

section
variable {b : Block} {i j : Nat}

theorem replaceChild_of_lt (hi : i < b.children.length) (blocks : List Block) :
    b.replaceChild i blocks =
      { b with children := b.children.take i ++ blocks ++ b.children.drop (i + 1) } :=
  if_pos hi

/-- Children before the index stay where they are. -/
theorem getElem?_replaceChild_before (hi : i < b.children.length) (hj : j < i)
    (blocks : List Block) : (b.replaceChild i blocks).children[j]? = b.children[j]? := by
  have htake : (b.children.take i).length = i := List.length_take_of_le (Nat.le_of_lt hi)
  rw [replaceChild_of_lt hi, List.append_assoc, List.getElem?_append_left (by omega),
    List.getElem?_take_of_lt hj]

/-- Children behind the index move by the number of blocks, less one. -/
theorem getElem?_replaceChild_behind (hi : i < b.children.length) (hj : i < j)
    (blocks : List Block) :
    (b.replaceChild i blocks).children[j + blocks.length - 1]? = b.children[j]? := by
  have hfront : (b.children.take i ++ blocks).length = i + blocks.length := by
    rw [List.length_append, List.length_take_of_le (Nat.le_of_lt hi)]
  rw [replaceChild_of_lt hi, List.getElem?_append_right (by omega), hfront, List.getElem?_drop]
  congr 1
  omega

end

/-! ## In the tree -/

/-- Where neither of two positions is at or below the other, another tree at the first one changes
nothing at the second. -/
theorem get?_setAt_of_apart (new : Block) {p q : Path} (b : Block) (hpq : ¬ p <+: q)
    (hqp : ¬ q <+: p) : (b.setAt p new).get? q = b.get? q := by
  induction p generalizing b q with
  | nil => exact absurd List.nil_prefix hpq
  | cons i p ih =>
    cases q with
    | nil => exact absurd List.nil_prefix hqp
    | cons j q =>
      obtain ⟨k, cs, ps⟩ := b
      rw [setAt, get?_cons, get?_cons, List.getElem?_modify]
      cases hc : cs[j]? with
      | none => rfl
      | some c =>
        by_cases hij : i = j
        · subst hij
          have h := ih c (fun h => hpq (List.cons_prefix_cons.mpr ⟨rfl, h⟩))
            (fun h => hqp (List.cons_prefix_cons.mpr ⟨rfl, h⟩))
          simpa using h
        · simp [hij]

/-- What stays of a tree `b`, and what has moved, if in `b'` there are blocks for the child with
index `i` of the block at `q`. -/
structure Replaced (b b' : Block) (q : Path) (i : Nat) (blocks : List Block) : Prop where
  /-- The parent has the blocks between the children that were before and behind the one. -/
  parent : ∃ x, b.get? q = some x ∧
    b'.get? q = some { x with
      children := x.children.take i ++ blocks ++ x.children.drop (i + 1) }
  /-- Everywhere else blocks keep their kind and their parameters. -/
  data : ∀ r : Path, ¬ r.GoesThrough q i →
    (b'.get? r).map kind = (b.get? r).map kind ∧
      (b'.get? r).map parameters = (b.get? r).map parameters
  /-- All but the ancestors keep all that is below them. -/
  subtree : ∀ r : Path, ¬ r.GoesThrough q i → ¬ r <+: q → b'.get? r = b.get? r
  /-- What was at or below a later sibling is found there still, under its new index. -/
  later : ∀ j s, i < j → b'.get? (q ++ (j + blocks.length - 1) :: s) = b.get? (q ++ j :: s)

section
variable {b b' x : Block} {q : Path} {i : Nat} {blocks : List Block}

/-- With one block for another, only what is at the position, below it or above it changes. -/
theorem Replaced.of_single (h : Replaced b b' q i blocks) (hone : blocks.length = 1) {r : Path}
    (hqr : ¬ q.child i <+: r) (hrq : ¬ r <+: q.child i) : b'.get? r = b.get? r := by
  have habove : ¬ r <+: q := fun h => hrq (h.trans (List.prefix_append q [i]))
  by_cases hr : r.GoesThrough q i
  · obtain ⟨j, s, hij, rfl⟩ := hr
    have hne : i ≠ j := by
      rintro rfl
      exact hqr ⟨s, List.append_assoc q [i] s⟩
    have hlater := h.later j s (by omega)
    rwa [hone, Nat.add_sub_cancel] at hlater
  · exact h.subtree r hr habove

/-- Below a block, the blocks are those of another one that is put for it. -/
theorem get?_setAt_below (hx : b.get? q = some x) (new : Block) {i j : Nat}
    (hij : new.children[j]? = x.children[i]?) (s : Path) :
    (b.setAt q new).get? (q ++ j :: s) = b.get? (q ++ i :: s) := by
  rw [get?_setAt_append new (j :: s) hx, get?_append, hx, Option.bind_some]
  obtain ⟨k, cs, ps⟩ := new
  obtain ⟨k', cs', ps'⟩ := x
  rw [get?_cons, get?_cons]
  exact congrArg (·.bind (·.get? s)) hij

theorem replaced_setAt (hx : b.get? q = some x) (hi : i < x.children.length) :
    Replaced b (b.setAt q (x.replaceChild i blocks)) q i blocks := by
  have hparent : (b.setAt q (x.replaceChild i blocks)).get? q = some (x.replaceChild i blocks) := by
    have h := get?_setAt_append (x.replaceChild i blocks) [] hx
    rwa [List.append_nil] at h
  have hbefore : ∀ j s, j < i →
      (b.setAt q (x.replaceChild i blocks)).get? (q ++ j :: s) = b.get? (q ++ j :: s) :=
    fun j s hj => get?_setAt_below hx _ (getElem?_replaceChild_before hi hj blocks) s
  refine ⟨⟨x, hx, ?_⟩, ?_, ?_, ?_⟩
  · rw [hparent, replaceChild_of_lt hi]
  · intro r hr
    rcases Path.cases_of_not_goesThrough hr with rfl | ⟨j, s, hj, rfl⟩ | hqr
    · rw [hparent, hx, replaceChild_of_lt hi]
      exact ⟨rfl, rfl⟩
    · rw [hbefore j s hj]
      exact ⟨rfl, rfl⟩
    · have hlabel := label_setAt (x.replaceChild i blocks) b hqr
      have hkind := congrArg (Option.map Prod.fst) hlabel
      have hparameters := congrArg (Option.map fun l : Kind × StringMap × Nat => l.2.1) hlabel
      rw [Option.map_map, Option.map_map] at hkind hparameters
      exact ⟨hkind, hparameters⟩
  · intro r hr habove
    rcases Path.cases_of_not_goesThrough hr with rfl | ⟨j, s, hj, rfl⟩ | hqr
    · exact absurd (List.prefix_refl r) habove
    · exact hbefore j s hj
    · exact get?_setAt_of_apart _ b hqr habove
  · intro j s hij
    exact get?_setAt_below hx _ (getElem?_replaceChild_behind hi hij blocks) s

end

/-! ## Replacing -/

/-- The tree after a replacement; it stays as it is if that is refused. -/
def replacedAt (b : Block) (p : Path) (blocks : List Block) : Block :=
  ((b.replaceAt? p blocks).map Prod.snd).getD b

theorem replaceAt?_nil (b : Block) (blocks : List Block) : b.replaceAt? [] blocks = none := rfl

theorem replaceAt?_of_get?_eq_none {b : Block} {p : Path} (h : b.get? p = none)
    (blocks : List Block) : b.replaceAt? p blocks = none := by
  rw [replaceAt?, h]
  cases p.getLast? <;> rfl

/-- A block that is found below the root is replaced in its parent. -/
theorem replaceAt?_child {b old : Block} {q : Path} {i : Nat} (h : b.get? (q.child i) = some old)
    (blocks : List Block) :
    ∃ x, b.get? q = some x ∧ i < x.children.length ∧
      b.replaceAt? (q.child i) blocks = some (old, b.setAt q (x.replaceChild i blocks)) := by
  have hfound := h
  rw [Path.child, get?_append] at hfound
  obtain ⟨x, hx, hchild⟩ := Option.bind_eq_some_iff.mp hfound
  refine ⟨x, hx, ?_, ?_⟩
  · obtain ⟨k, cs, ps⟩ := x
    rw [get?_cons] at hchild
    obtain ⟨c, hc, -⟩ := Option.bind_eq_some_iff.mp hchild
    exact (List.getElem?_eq_some_iff.mp hc).1
  · rw [replaceAt?, h]
    simp only [Path.child, List.getLast?_concat, List.dropLast_concat]
    rw [edit?_eq_setAt (·.replaceChild i blocks) hx]
    rfl

theorem replaceAt?_eq_none_iff (b : Block) (p : Path) (blocks : List Block) :
    b.replaceAt? p blocks = none ↔ p = [] ∨ b.get? p = none := by
  constructor
  · intro h
    rcases List.eq_nil_or_concat' p with rfl | ⟨q, i, rfl⟩
    · exact .inl rfl
    · cases hold : b.get? (q ++ [i]) with
      | none => exact .inr rfl
      | some old =>
        obtain ⟨x, -, -, hsome⟩ := replaceAt?_child (q := q) hold blocks
        exact nomatch h.symm.trans hsome
  · rintro (rfl | h)
    · exact replaceAt?_nil b blocks
    · exact replaceAt?_of_get?_eq_none h blocks

/-- **A replacement edits one position.** It is refused at the root and where there is no block, and
leaves the tree as it is then. Otherwise the answer is the block that was there, and in the new tree
the parent has the blocks for that child, later siblings have moved, and the rest of the tree is as
it was. With one block for another no position changes but those above and below. -/
theorem replaceAt?_frame (b : Block) (p : Path) (blocks : List Block) :
    (b.replaceAt? p blocks = none ↔ p = [] ∨ b.get? p = none) ∧
      (b.replaceAt? p blocks = none → b.replacedAt p blocks = b) ∧
      ∀ q i old, p = q.child i → b.get? p = some old →
        b.replaceAt? p blocks = some (old, b.replacedAt p blocks) ∧
          Replaced b (b.replacedAt p blocks) q i blocks ∧
          ∀ new, blocks = [new] → ∀ r, ¬ p <+: r → ¬ r <+: p →
            (b.replacedAt p blocks).get? r = b.get? r := by
  refine ⟨replaceAt?_eq_none_iff b p blocks, fun h => ?_, ?_⟩
  · rw [replacedAt, h]
    rfl
  · rintro q i old rfl hold
    obtain ⟨x, hx, hi, hsome⟩ := replaceAt?_child hold blocks
    have hafter : b.replacedAt (q.child i) blocks = b.setAt q (x.replaceChild i blocks) := by
      rw [replacedAt, hsome]
      rfl
    have hreplaced : Replaced b (b.replacedAt (q.child i) blocks) q i blocks :=
      hafter ▸ replaced_setAt hx hi
    refine ⟨hafter ▸ hsome, hreplaced, ?_⟩
    rintro new rfl r hpr hrp
    exact hreplaced.of_single rfl hpr hrp

/-- Words around a group that stands inside another one. -/
def groupedWords : Block :=
  group [word "a", group [word "b", group [space], word "c"], word "d"]

/-- With two words for the inner group the word behind it moves, with one it does not. -/
theorem replaceAt?_groupedWords :
    groupedWords.get? [1, 1] = some (group [space]) ∧
      groupedWords.replaceAt? [1, 1] [word "x", word "y"] =
        some (group [space], groupedWords.replacedAt [1, 1] [word "x", word "y"]) ∧
      (groupedWords.replacedAt [1, 1] [word "x", word "y"]).get? [1, 3] =
        groupedWords.get? [1, 2] ∧
      (groupedWords.replacedAt [1, 1] [word "x"]).get? [1, 2] = groupedWords.get? [1, 2] := by
  have hold : groupedWords.get? [1, 1] = some (group [space]) := rfl
  have htwo := (replaceAt?_frame groupedWords [1, 1] [word "x", word "y"]).2.2 [1] 1 _ rfl hold
  have hone := (replaceAt?_frame groupedWords [1, 1] [word "x"]).2.2 [1] 1 _ rfl hold
  exact ⟨hold, htwo.1, htwo.2.1.later 2 [] (by decide),
    hone.2.2 _ rfl [1, 2] (by decide) (by decide)⟩

end Block

end DocTree
