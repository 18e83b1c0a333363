import DocTree.Block.Fault
import Mathlib.Data.List.Lex

/-!
# The positions of a tree

`paths` lists the positions at which a block is found (`mem_paths`), each once and in lexicographic
order (`pairwise_paths`).

A tree has a property everywhere (`Block.All`) if each block that is found at some position has it.

`setAt` puts another tree at a position. Below that position the new tree is found
(`get?_setAt_append`), and everywhere else a block keeps its `label`, which is all of it except what
its children are (`label_setAt`). So a valid tree stays valid with a valid one at a position
(`Valid.setAt`).
-/

namespace DocTree.Block

/-! ## What holds everywhere -/

theorem get?_cons (k : Kind) (cs : List Block) (ps : StringMap) (i : Nat) (p : Path) :
    get? ⟨k, cs, ps⟩ (i :: p) = cs[i]?.bind (·.get? p) := by
  rw [get?]
  cases cs[i]? <;> rfl

/-- Above a block that is found there are blocks, up to the root. -/
theorem isSome_get?_of_prefix {b : Block} {p q : Path} (hpq : p <+: q) (h : (b.get? q).isSome) :
    (b.get? p).isSome := by
  obtain ⟨r, rfl⟩ := hpq
  rw [get?_append] at h
  exact Option.isSome_of_isSome_bind h

/-- Every block of a tree has a property. -/
def All (P : Block → Prop) (b : Block) : Prop := ∀ p x, b.get? p = some x → P x

variable {P : Block → Prop}

theorem All.self {b : Block} (h : b.All P) : P b := h [] b rfl

/-- What is below the root is in one of its children. -/
theorem forall_below_iff {k : Kind} {cs : List Block} {ps : StringMap} :
    (∀ i p x, get? ⟨k, cs, ps⟩ (i :: p) = some x → P x) ↔ ∀ c ∈ cs, c.All P := by
  constructor
  · intro h c hc p x hx
    obtain ⟨i, hi⟩ := List.mem_iff_getElem?.mp hc
    refine h i p x ?_
    rw [get?_cons, hi]
    exact hx
  · intro h i p x hx
    rw [get?_cons] at hx
    obtain ⟨c, hc, hx⟩ := Option.bind_eq_some_iff.mp hx
    exact h c (List.mem_of_getElem? hc) p x hx

theorem all_mk_iff {k : Kind} {cs : List Block} {ps : StringMap} :
    All P ⟨k, cs, ps⟩ ↔ P ⟨k, cs, ps⟩ ∧ ∀ c ∈ cs, c.All P := by
  rw [← forall_below_iff]
  constructor
  · exact fun h => ⟨h.self, fun i p x hx => h (i :: p) x hx⟩
  · rintro ⟨hb, hbelow⟩ p x hx
    cases p with
    | nil =>
      obtain rfl := Option.some.inj hx
      exact hb
    | cons i p => exact hbelow i p x hx

/-- Only the root has a property if nothing in its children has it. -/
theorem only_root_iff {k : Kind} {cs : List Block} {ps : StringMap} :
    (∀ p x, get? ⟨k, cs, ps⟩ p = some x → P x → p = []) ↔
      ∀ c ∈ cs, c.All fun x => ¬ P x := by
  rw [← forall_below_iff]
  constructor
  · exact fun h i p x hx hp => List.cons_ne_nil i p (h (i :: p) x hx hp)
  · intro h p x hx hp
    cases p with
    | nil => rfl
    | cons i p => exact absurd hp (h i p x hx)

/-! ## The list of positions -/

theorem mem_pathsFrom (cs : List Block) : ∀ (n : Nat) (p : Path),
    p ∈ pathsFrom n cs ↔ ∃ i q, p = (n + i) :: q ∧ (cs[i]?.bind (·.get? q)).isSome := by
  induction cs using forestInduction with
  | nil =>
    intro n p
    simp [pathsFrom]
  | cons k cs ps bs ihcs ihbs =>
    intro n p
    have hself : ∀ q, q ∈ paths ⟨k, cs, ps⟩ ↔ (get? ⟨k, cs, ps⟩ q).isSome := by
      intro q
      rw [paths, List.mem_cons, ihcs 0 q]
      cases q with
      | nil => simp
      | cons i q => simp [get?_cons]
    rw [pathsFrom, List.mem_append, List.mem_map, ihbs (n + 1) p]
    constructor
    · rintro (⟨q, hq, rfl⟩ | ⟨i, q, rfl, hq⟩)
      · exact ⟨0, q, rfl, (hself q).mp hq⟩
      · exact ⟨i + 1, q, by rw [Nat.add_right_comm, Nat.add_assoc], hq⟩
    · rintro ⟨i, q, rfl, hq⟩
      cases i with
      | zero => exact .inl ⟨q, (hself q).mpr hq, rfl⟩
      | succ i => exact .inr ⟨i, q, by rw [Nat.add_right_comm, Nat.add_assoc], hq⟩

/-- The listed positions are those of blocks. -/
theorem mem_paths (b : Block) (p : Path) : p ∈ b.paths ↔ (b.get? p).isSome := by
  obtain ⟨k, cs, ps⟩ := b
  rw [paths, List.mem_cons, mem_pathsFrom]
  cases p with
  | nil => simp
  | cons i p => simp [get?_cons]

theorem pairwise_pathsFrom (cs : List Block) : ∀ n, (pathsFrom n cs).Pairwise (· < ·) := by
  induction cs using forestInduction with
  | nil => exact fun _ => .nil
  | cons k cs ps bs ihcs ihbs =>
    intro n
    have hself : (paths ⟨k, cs, ps⟩).Pairwise (· < ·) := by
      rw [paths, List.pairwise_cons]
      refine ⟨fun p hp => ?_, ihcs 0⟩
      obtain ⟨i, q, rfl, -⟩ := (mem_pathsFrom cs 0 p).mp hp
      exact List.nil_lt_cons _ _
    rw [pathsFrom, List.pairwise_append, List.pairwise_map]
    refine ⟨hself.imp fun h => List.cons_lt_cons_iff.mpr (.inr ⟨rfl, h⟩), ihbs (n + 1), ?_⟩
    intro p hp q hq
    obtain ⟨p, -, rfl⟩ := List.mem_map.mp hp
    obtain ⟨i, q, rfl, -⟩ := (mem_pathsFrom bs (n + 1) q).mp hq
    exact List.cons_lt_cons_iff.mpr (.inl (by omega))

/-- Positions are listed in lexicographic order. -/
theorem pairwise_paths (b : Block) : b.paths.Pairwise (· < ·) := by
  have h := pairwise_pathsFrom [b] 0
  rw [pathsFrom, pathsFrom, List.append_nil, List.pairwise_map] at h
  refine h.imp fun hpq => ?_
  rcases List.cons_lt_cons_iff.mp hpq with h | ⟨-, h⟩
  · exact absurd h (Nat.lt_irrefl 0)
  · exact h

theorem nodup_paths (b : Block) : b.paths.Nodup := (pairwise_paths b).imp ne_of_lt

/-! ## Another tree at a position -/

/-- The tree with another one at a position; no change if there is no such position. -/
def setAt : Block → Path → Block → Block
  | _, [], new => new
  | ⟨k, cs, ps⟩, i :: p, new => ⟨k, cs.modify i (·.setAt p new), ps⟩

/-- What a block says, except what its children are. -/
def label (b : Block) : Kind × StringMap × Nat := (b.kind, b.parameters, b.children.length)

theorem call?_eq_of_label {a b : Block} (h : a.label = b.label) : a.call? = b.call? := by
  rw [call?, call?, (Prod.mk.inj h).1]

theorem parameters_eq_of_label {a b : Block} (h : a.label = b.label) :
    a.parameters = b.parameters :=
  (Prod.mk.inj (Prod.mk.inj h).2).1

theorem children_eq_nil_of_label {a b : Block} (h : a.label = b.label) :
    a.children = [] ↔ b.children = [] := by
  rw [← List.length_eq_zero_iff, ← List.length_eq_zero_iff, (Prod.mk.inj (Prod.mk.inj h).2).2]

/-- Editing puts the changed block in the place of the one that it finds. -/
theorem edit?_eq_setAt (f : Block → Block) {p : Path} {b old : Block} (h : b.get? p = some old) :
    b.edit? f p = some (b.setAt p (f old)) := by
  induction p generalizing b with
  | nil =>
    obtain rfl := Option.some.inj h
    rfl
  | cons i p ih =>
    obtain ⟨k, cs, ps⟩ := b
    rw [get?_cons] at h
    obtain ⟨c, hc, h⟩ := Option.bind_eq_some_iff.mp h
    obtain ⟨hi, hci⟩ := List.getElem?_eq_some_iff.mp hc
    simp only [edit?, hc, ih h, setAt]
    rw [List.modify_eq_set_getElem?, hc]
    rfl

theorem edit?_const (new : Block) {p : Path} {b old : Block} (h : b.get? p = some old) :
    b.edit? (fun _ => new) p = some (b.setAt p new) :=
  edit?_eq_setAt (fun _ => new) h

theorem get?_setAt_append (new : Block) (q : Path) {p : Path} {b old : Block}
    (h : b.get? p = some old) : (b.setAt p new).get? (p ++ q) = new.get? q := by
  induction p generalizing b with
  | nil => rfl
  | cons i p ih =>
    obtain ⟨k, cs, ps⟩ := b
    rw [get?_cons] at h
    obtain ⟨c, hc, h⟩ := Option.bind_eq_some_iff.mp h
    rw [setAt, List.cons_append, get?_cons, List.getElem?_modify_eq, hc]
    exact ih h

/-- A block that is not at or below the position keeps its label. -/
theorem label_setAt (new : Block) {p q : Path} (b : Block) (h : ¬ p <+: q) :
    ((b.setAt p new).get? q).map label = (b.get? q).map label := by
  induction p generalizing b q with
  | nil => exact absurd List.nil_prefix h
  | cons i p ih =>
    obtain ⟨k, cs, ps⟩ := b
    cases q with
    | nil => simp [setAt, label]
    | cons j q =>
      rw [setAt, get?_cons, get?_cons, List.getElem?_modify]
      cases hc : cs[j]? with
      | none => rfl
      | some c =>
        by_cases hij : i = j
        · subst hij
          have hpq : ¬ p <+: q := fun hpq => h (List.cons_prefix_cons.mpr ⟨rfl, hpq⟩)
          simpa using ih c hpq
        · simp [hij]

/-- A property of labels that holds everywhere still does with another tree that has it. -/
theorem All.setAt {b new old : Block} {p : Path}
    (hP : ∀ {x y : Block}, x.label = y.label → P x → P y)
    (hb : b.All P) (hnew : new.All P) (hp : b.get? p = some old) : (b.setAt p new).All P := by
  intro q x hx
  by_cases hpq : p <+: q
  · obtain ⟨r, rfl⟩ := hpq
    rw [get?_setAt_append new r hp] at hx
    exact hnew r x hx
  · have hlabel := label_setAt new b hpq
    rw [hx, Option.map_some] at hlabel
    obtain ⟨y, hy, hyx⟩ := Option.map_eq_some_iff.mp hlabel.symm
    exact hP hyx (hb q y hy)

/-- Two positions of which neither is at or below the other one can be set in any order. -/
theorem setAt_comm (b x y : Block) {p q : Path} (hpq : ¬ p <+: q) (hqp : ¬ q <+: p) :
    (b.setAt p x).setAt q y = (b.setAt q y).setAt p x := by
  induction p generalizing b q with
  | nil => exact absurd List.nil_prefix hpq
  | cons i p ih =>
    cases q with
    | nil => exact absurd List.nil_prefix hqp
    | cons j q =>
      obtain ⟨k, cs, ps⟩ := b
      simp only [setAt, mk.injEq, true_and, and_true]
      by_cases hij : i = j
      · subst hij
        have hcomm : ∀ c : Block, (c.setAt p x).setAt q y = (c.setAt q y).setAt p x := fun c =>
          ih c (fun h => hpq (List.cons_prefix_cons.mpr ⟨rfl, h⟩))
            (fun h => hqp (List.cons_prefix_cons.mpr ⟨rfl, h⟩))
        rw [List.modify_modify_eq, List.modify_modify_eq]
        exact congrArg (cs.modify i) (funext hcomm)
      · exact List.modify_modify_ne _ _ cs hij

/-! ## Valid trees -/

/-- A tree is valid if no block in it has a fault of its own. -/
theorem valid_iff_all {b : Block} : b.Valid ↔ b.All (·.ownFault? = none) := by
  suffices h : ∀ bs : List Block, (∀ b ∈ bs, b.Valid) ↔ ∀ b ∈ bs, b.All (·.ownFault? = none) by
    simpa using h [b]
  intro bs
  induction bs using forestInduction with
  | nil => simp
  | cons k cs ps bs ihcs ihbs =>
    rw [List.forall_mem_cons, List.forall_mem_cons, ihbs, valid_mk_iff, all_mk_iff,
      ownFault?_eq_none_iff, ihcs]

/-- A valid tree stays valid with a valid one in the place of a block. -/
theorem Valid.setAt {b new old : Block} {p : Path} (hb : b.Valid) (hnew : new.Valid)
    (hp : b.get? p = some old) : (b.setAt p new).Valid := by
  rw [valid_iff_all] at hb hnew ⊢
  refine All.setAt (fun {x y} hxy hx => ?_) hb hnew hp
  have hchildren := children_eq_nil_of_label hxy
  obtain ⟨k, cs, ps⟩ := x
  obtain ⟨k', cs', ps'⟩ := y
  obtain rfl : k = k' := (Prod.mk.inj hxy).1
  obtain rfl : ps = ps' := parameters_eq_of_label hxy
  rw [ownFault?_eq_none_iff] at hx ⊢
  exact ⟨fun h => hchildren.mp (hx.1 h), hx.2⟩

end DocTree.Block
