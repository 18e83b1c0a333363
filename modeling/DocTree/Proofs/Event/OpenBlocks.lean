import DocTree.Proofs.Event.Nesting

/-!
# Open blocks

Which blocks are open at an event. A block is given by the position at which it is entered, and it
is open at its own enter and exit and at all events between them (`mem_openAt_iff`).

Of the open blocks of a sort, the innermost one is the one entered last (`innermost`). A block that
is entered belongs to it, and so it has members of its own, which are counted up to any event
(`begun`).

The positions are those of a balanced sequence. In it, an exit leaves the innermost open block
(`WellNested.openBefore_eq_cons`), and in the end no block is open (`WellNested.openBefore_length`).
-/

namespace DocTree

/-! ## Positions -/

/-- A block of a sort is entered at a position. -/
def entersAt (es : List Event) (p : ContainerTag → Bool) (i : Nat) : Bool :=
  match es[i]? with
  | some (.enter o) => p o.kind.tag
  | _ => false

/-- The positions at which the blocks are entered that are open before the event at a position,
innermost first. -/
def openBefore (es : List Event) : Nat → List Nat
  | 0 => []
  | i + 1 =>
    match es[i]? with
    | some (.enter _) => i :: openBefore es i
    | some (.exit _) => (openBefore es i).tail
    | _ => openBefore es i

/-- The positions at which the blocks are entered that are open at an event, innermost first: the
ones open before it and the one that it enters. -/
def openAt (es : List Event) (i : Nat) : List Nat :=
  match es[i]? with
  | some (.enter _) => i :: openBefore es i
  | _ => openBefore es i

/-- The number of open blocks of a sort. -/
def openCount (es : List Event) (p : ContainerTag → Bool) (i : Nat) : Nat :=
  (openAt es i).countP (entersAt es p)

/-- The innermost open block of a sort. -/
def innermost (es : List Event) (p : ContainerTag → Bool) (i : Nat) : Option Nat :=
  (openAt es i).find? (entersAt es p)

/-- A block of the sort `q` is entered at a position while `outer` is the innermost open block of
the sort `p`. -/
def beginsIn (es : List Event) (p q : ContainerTag → Bool) (outer : Option Nat) (i : Nat) : Bool :=
  entersAt es q i && innermost es p i == outer

/-- The number of such blocks that are entered at one of the first events. -/
def begun (es : List Event) (p q : ContainerTag → Bool) (outer : Option Nat) (n : Nat) : Nat :=
  (List.range n).countP (beginsIn es p q outer)

section

variable {es : List Event} {p q : ContainerTag → Bool} {i j : Nat} {o : Opening}

theorem openBefore_enter (h : es[i]? = some (.enter o)) :
    openBefore es (i + 1) = i :: openBefore es i := by
  rw [openBefore, h]

theorem openBefore_exit (h : es[i]? = some (.exit o)) :
    openBefore es (i + 1) = (openBefore es i).tail := by
  rw [openBefore, h]

theorem openBefore_leaf {a : Atom} (h : es[i]? = some (.leaf a)) :
    openBefore es (i + 1) = openBefore es i := by
  rw [openBefore, h]

theorem openAt_enter (h : es[i]? = some (.enter o)) : openAt es i = i :: openBefore es i := by
  rw [openAt, h]

theorem openAt_exit (h : es[i]? = some (.exit o)) : openAt es i = openBefore es i := by
  rw [openAt, h]

theorem openAt_leaf {a : Atom} (h : es[i]? = some (.leaf a)) : openAt es i = openBefore es i := by
  rw [openAt, h]

theorem entersAt_enter (h : es[i]? = some (.enter o)) : entersAt es p i = p o.kind.tag := by
  rw [entersAt, h]

theorem entersAt_enter_of_not (h : es[i]? = some (.enter o)) (hp : ¬ p o.kind.tag = true) :
    entersAt es p i = false :=
  (entersAt_enter h).trans (Bool.eq_false_of_not_eq_true hp)

theorem entersAt_exit (h : es[i]? = some (.exit o)) : entersAt es p i = false := by
  rw [entersAt, h]

theorem entersAt_leaf {a : Atom} (h : es[i]? = some (.leaf a)) : entersAt es p i = false := by
  rw [entersAt, h]

theorem lt_of_mem_openBefore (h : j ∈ openBefore es i) : j < i := by
  induction i with
  | zero => cases h
  | succ i ih =>
    rw [openBefore] at h
    split at h
    · rcases List.mem_cons.mp h with rfl | h
      · exact Nat.lt_succ_self _
      · exact Nat.lt_succ_of_lt (ih h)
    · exact Nat.lt_succ_of_lt (ih (List.mem_of_mem_tail h))
    · exact Nat.lt_succ_of_lt (ih h)

/-- Inner blocks are entered later. -/
theorem pairwise_openBefore (es : List Event) (i : Nat) :
    (openBefore es i).Pairwise (· > ·) := by
  induction i with
  | zero => exact .nil
  | succ i ih =>
    rw [openBefore]
    split
    · exact List.pairwise_cons.mpr ⟨fun j hj => lt_of_mem_openBefore hj, ih⟩
    · exact ih.tail
    · exact ih

theorem le_of_mem_openAt (h : j ∈ openAt es i) : j ≤ i := by
  rw [openAt] at h
  split at h
  · rcases List.mem_cons.mp h with rfl | h
    · exact Nat.le_refl _
    · exact (lt_of_mem_openBefore h).le
  · exact (lt_of_mem_openBefore h).le

theorem pairwise_openAt (es : List Event) (i : Nat) : (openAt es i).Pairwise (· > ·) := by
  rw [openAt]
  split
  · exact List.pairwise_cons.mpr ⟨fun j hj => lt_of_mem_openBefore hj, pairwise_openBefore es i⟩
  · exact pairwise_openBefore es i

/-! ## Members -/

theorem le_of_innermost (h : innermost es p i = some j) : j ≤ i :=
  le_of_mem_openAt (List.mem_of_find?_eq_some h)

theorem entersAt_of_innermost (h : innermost es p i = some j) : entersAt es p j = true :=
  List.find?_some h

theorem exists_of_entersAt (h : entersAt es p i = true) : ∃ o, es[i]? = some (.enter o) := by
  rw [entersAt] at h
  split at h
  · exact ⟨_, ‹_›⟩
  · cases h

/-- No block is of two sorts that exclude each other. -/
theorem not_entersAt_of_entersAt (h : ∀ t, q t = true → p t = false)
    (hp : entersAt es p i = true) : entersAt es q i = false := by
  obtain ⟨o, he⟩ := exists_of_entersAt hp
  rw [entersAt_enter he] at hp ⊢
  cases hq : q o.kind.tag with
  | false => rfl
  | true => simp [h _ hq] at hp

theorem innermost_self (h : entersAt es p i = true) : innermost es p i = some i := by
  obtain ⟨o, he⟩ := exists_of_entersAt h
  rw [innermost, openAt_enter he, List.find?_cons_of_pos h]

/-- The innermost open block of a sort is the one that is entered last. -/
theorem innermost_eq_some_iff :
    innermost es p i = some j ↔ j ∈ openAt es i ∧ entersAt es p j = true ∧
      ∀ k ∈ openAt es i, entersAt es p k = true → k ≤ j := by
  have hlast : ∀ {k}, innermost es p i = some k →
      ∀ l ∈ openAt es i, entersAt es p l = true → l ≤ k := by
    intro k hk l hl hlp
    obtain ⟨-, inner, outer, hopen, hinner⟩ := List.find?_eq_some_iff_append.mp hk
    have hsorted := hopen ▸ pairwise_openAt es i
    have houter : ∀ m ∈ outer, k > m :=
      (List.pairwise_cons.mp (List.pairwise_append.mp hsorted).2.1).1
    rw [hopen] at hl
    rcases List.mem_append.mp hl with hl | hl
    · have hnot : entersAt es p l = false := by simpa using hinner l hl
      simp [hnot] at hlp
    · rcases List.mem_cons.mp hl with rfl | hl
      · exact Nat.le_refl _
      · exact (houter l hl).le
  constructor
  · intro h
    exact ⟨List.mem_of_find?_eq_some h, List.find?_some h, hlast h⟩
  · rintro ⟨hj, hjp, hle⟩
    obtain ⟨k, hk⟩ := Option.isSome_iff_exists.mp (List.find?_isSome.mpr ⟨j, hj, hjp⟩)
    have hkj : k ≤ j := hle k (List.mem_of_find?_eq_some hk) (List.find?_some hk)
    have hjk : j ≤ k := hlast hk j hj hjp
    exact hk.trans (congrArg some (Nat.le_antisymm hkj hjk))

theorem begun_succ (outer : Option Nat) (n : Nat) :
    begun es p q outer (n + 1) = begun es p q outer n + (beginsIn es p q outer n).toNat := by
  rw [begun, List.range_succ, List.countP_append, List.countP_singleton, ← begun]
  cases beginsIn es p q outer n <;> rfl

/-- A block has no members before it is entered. -/
theorem begun_eq_zero {n : Nat} (h : n ≤ j) : begun es p q (some j) n = 0 := by
  refine List.countP_eq_zero.mpr fun k hk hmember => ?_
  have hinner : innermost es p k = some j := by simpa using (Bool.and_eq_true_iff.mp hmember).2
  have hkn : k < n := List.mem_range.mp hk
  exact absurd (le_of_innermost hinner) (by omega)

/-! ## Pairs of enters and exits -/

namespace Pairing

variable {pair : Nat → Nat → Prop}

theorem enter_of_pair (h : Pairing es pair) {k : Nat} (hp : pair j k) :
    ∃ o, es[j]? = some (.enter o) ∧ es[k]? = some (.exit o) ∧ j < k := by
  obtain ⟨hlt, b, e, hb, he, hc⟩ := h.closes j k hp
  obtain ⟨o, rfl, rfl⟩ := Event.closes_iff.mp hc
  exact ⟨o, hb, he, hlt⟩

/-- An exit leaves the block that was entered last of those that are open. -/
theorem openBefore_eq_cons (h : Pairing es pair)
    (hmem : ∀ j, j ∈ openBefore es i ↔ ∃ k, pair j k ∧ j < i ∧ i ≤ k) (hp : pair j i) :
    ∃ outer, openBefore es i = j :: outer := by
  have hj : j ∈ openBefore es i :=
    (hmem j).mpr ⟨i, hp, (h.closes j i hp).1, Nat.le_refl i⟩
  have hsorted := pairwise_openBefore es i
  cases hopen : openBefore es i with
  | nil => rw [hopen] at hj; cases hj
  | cons a outer =>
    rw [hopen] at hj hsorted
    rcases List.mem_cons.mp hj with rfl | hj
    · exact ⟨outer, rfl⟩
    · -- A block entered after `j` would have to be left before the exit.
      have haj : j < a := (List.pairwise_cons.mp hsorted).1 j hj
      obtain ⟨k, hak, hai, hik⟩ := (hmem a).mp (hopen ▸ List.mem_cons_self)
      exact absurd (h.nested j i a k hp hak haj hai) (Nat.not_lt.mpr hik)

/-- The blocks that are open before an event are those that are entered before it and left at it or
later. -/
theorem mem_openBefore_iff (h : Pairing es pair) (hi : i ≤ es.length) :
    j ∈ openBefore es i ↔ ∃ k, pair j k ∧ j < i ∧ i ≤ k := by
  induction i generalizing j with
  | zero => exact ⟨fun hj => absurd hj List.not_mem_nil, fun ⟨_, _, hj, _⟩ => absurd hj (by omega)⟩
  | succ i ih =>
    have hmem := fun j => @ih j (Nat.le_of_succ_le hi)
    obtain ⟨e, he⟩ : ∃ e, es[i]? = some e := ⟨_, List.getElem?_eq_getElem hi⟩
    -- At an event that is no exit, no block is left.
    have hstay : (∀ o, e ≠ .exit o) → ∀ {j k}, pair j k → i ≤ k → i + 1 ≤ k := by
      intro hne j k hp hik
      obtain ⟨o, -, hk, -⟩ := h.enter_of_pair hp
      rcases Nat.lt_or_eq_of_le hik with hlt | rfl
      · exact hlt
      · exact absurd (Option.some.inj (he.symm.trans hk)) (hne o)
    cases e with
    | leaf a =>
      rw [openBefore_leaf he, hmem]
      constructor
      · rintro ⟨k, hp, hji, hik⟩
        exact ⟨k, hp, by omega, hstay nofun hp hik⟩
      · rintro ⟨k, hp, hji, hik⟩
        have hne : j ≠ i := by
          rintro rfl
          obtain ⟨o, hj, -⟩ := h.enter_of_pair hp
          cases he.symm.trans hj
        exact ⟨k, hp, by omega, by omega⟩
    | enter o =>
      rw [openBefore_enter he, List.mem_cons, hmem]
      constructor
      · rintro (rfl | ⟨k, hp, hji, hik⟩)
        · obtain ⟨k, hp, -⟩ := h.enter j _ he rfl
          exact ⟨k, hp, Nat.lt_succ_self j, (h.closes j k hp).1⟩
        · exact ⟨k, hp, by omega, hstay nofun hp hik⟩
      · rintro ⟨k, hp, hji, hik⟩
        rcases Nat.lt_succ_iff_lt_or_eq.mp hji with hlt | rfl
        · exact .inr ⟨k, hp, hlt, by omega⟩
        · exact .inl rfl
    | exit o =>
      obtain ⟨i', hp', huniq⟩ := h.exit i _ he rfl
      obtain ⟨outer, houter⟩ := h.openBefore_eq_cons hmem hp'
      have hsorted := houter ▸ pairwise_openBefore es i
      have hne : ∀ j ∈ outer, j ≠ i' := fun j hj =>
        ((List.pairwise_cons.mp hsorted).1 j hj).ne
      have hj : j ∈ i' :: outer ↔ ∃ k, pair j k ∧ j < i ∧ i ≤ k := by rw [← houter, hmem]
      rw [openBefore_exit he, houter, List.tail_cons]
      constructor
      · intro hjo
        obtain ⟨k, hp, hji, hik⟩ := hj.mp (List.mem_cons_of_mem _ hjo)
        refine ⟨k, hp, by omega, Nat.lt_of_le_of_ne hik ?_⟩
        rintro rfl
        exact hne j hjo (huniq j hp)
      · rintro ⟨k, hp, hji, hik⟩
        have hji' : j ≠ i := by
          rintro rfl
          obtain ⟨o, hj, -⟩ := h.enter_of_pair hp
          cases he.symm.trans hj
        rcases List.mem_cons.mp (hj.mpr ⟨k, hp, by omega, by omega⟩) with rfl | hjo
        · -- The block that is left here is not left again.
          obtain ⟨_, hj, -⟩ := h.enter_of_pair hp
          obtain ⟨l, -, hl⟩ := h.enter j _ hj rfl
          have := (hl i hp').trans (hl k hp).symm
          omega
        · exact hjo

/-- **A block is open from its enter to its exit.** -/
theorem mem_openAt_iff (h : Pairing es pair) (hi : i < es.length) :
    j ∈ openAt es i ↔ ∃ k, pair j k ∧ j ≤ i ∧ i ≤ k := by
  have hmem := h.mem_openBefore_iff (j := j) hi.le
  have hnot : ∀ k, pair i k → ∃ o, es[i]? = some (.enter o) := fun k hp =>
    (h.enter_of_pair hp).imp fun _ ho => ho.1
  rw [openAt]
  split
  · rename_i o ho
    rw [List.mem_cons, hmem]
    constructor
    · rintro (rfl | ⟨k, hp, hji, hik⟩)
      · obtain ⟨k, hp, -⟩ := h.enter j _ ho rfl
        exact ⟨k, hp, Nat.le_refl j, (h.closes j k hp).1.le⟩
      · exact ⟨k, hp, hji.le, hik⟩
    · rintro ⟨k, hp, hji, hik⟩
      rcases Nat.lt_or_eq_of_le hji with hlt | rfl
      · exact .inr ⟨k, hp, hlt, hik⟩
      · exact .inl rfl
  · rename_i hne
    rw [hmem]
    constructor
    · rintro ⟨k, hp, hji, hik⟩
      exact ⟨k, hp, hji.le, hik⟩
    · rintro ⟨k, hp, hji, hik⟩
      refine ⟨k, hp, Nat.lt_of_le_of_ne hji ?_, hik⟩
      rintro rfl
      obtain ⟨o, ho⟩ := hnot k hp
      exact hne o ho

end Pairing

/-! ## Exits and the end -/

namespace WellNested

/-- The innermost open block before an exit is the one that it leaves. -/
theorem openBefore_eq_cons (h : WellNested es) (he : es[i]? = some (.exit o)) :
    ∃ j outer, openBefore es i = j :: outer ∧ es[j]? = some (.enter o) := by
  obtain ⟨pair, hpair⟩ := h
  have hi : i < es.length := (List.getElem?_eq_some_iff.mp he).1
  obtain ⟨j, hp, -⟩ := hpair.exit i _ he rfl
  obtain ⟨outer, houter⟩ := hpair.openBefore_eq_cons
    (fun j => hpair.mem_openBefore_iff (j := j) hi.le) hp
  obtain ⟨o', hj, hi', -⟩ := hpair.enter_of_pair hp
  obtain rfl : o = o' := by simpa using he.symm.trans hi'
  exact ⟨j, outer, houter, hj⟩

/-- A block that is open at an event is open before all events since its enter. -/
theorem mem_openBefore_of_le {k : Nat} (h : WellNested es) (hi : i < es.length)
    (hj : j ∈ openAt es i) (hjk : j < k) (hki : k ≤ i) : j ∈ openBefore es k := by
  obtain ⟨pair, hpair⟩ := h
  obtain ⟨l, hp, -, hil⟩ := (hpair.mem_openAt_iff hi).mp hj
  exact (hpair.mem_openBefore_iff (by omega)).mpr ⟨l, hp, hjk, by omega⟩

theorem mem_openAt_of_le {k : Nat} (h : WellNested es) (hi : i < es.length)
    (hj : j ∈ openAt es i) (hjk : j ≤ k) (hki : k ≤ i) : j ∈ openAt es k := by
  obtain ⟨pair, hpair⟩ := h
  obtain ⟨l, hp, -, hil⟩ := (hpair.mem_openAt_iff hi).mp hj
  exact (hpair.mem_openAt_iff (by omega)).mpr ⟨l, hp, hjk, by omega⟩

/-- A block stays the innermost one of its sort as long as no other of the sort is entered. -/
theorem innermost_of_le {k r : Nat} (h : WellNested es) (hi : i < es.length)
    (hr : innermost es p r = some j) (hinner : innermost es p i = some j)
    (hnone : ∀ k ≤ i, r < k → entersAt es p k = false) (hrk : r ≤ k) (hki : k ≤ i) :
    innermost es p k = some j := by
  obtain ⟨hj, hjp, -⟩ := innermost_eq_some_iff.mp hinner
  have hjr : j ≤ r := le_of_innermost hr
  refine innermost_eq_some_iff.mpr ⟨h.mem_openAt_of_le hi hj (by omega) hki, hjp, ?_⟩
  intro m hm hmp
  have hmk : m ≤ k := le_of_mem_openAt hm
  by_cases hrm : r < m
  · simp [hnone m (by omega) hrm] at hmp
  · have hmr : m ∈ openAt es r := h.mem_openAt_of_le (by omega) hm (by omega) hrk
    exact (innermost_eq_some_iff.mp hr).2.2 m hmr hmp

/-- Nor is a block of the sort left meanwhile. -/
theorem not_exit_of_innermost {k : Nat} (h : WellNested es) (hi : i < es.length)
    (hinner : innermost es p i = some j) (hk : innermost es p k = some j) (hki : k < i)
    (he : es[k]? = some (.exit o)) : p o.kind.tag = false := by
  obtain ⟨hj, -⟩ := innermost_eq_some_iff.mp hinner
  obtain ⟨hjk, -, hlast⟩ := innermost_eq_some_iff.mp hk
  obtain ⟨l, outer, hopen, hl⟩ := h.openBefore_eq_cons he
  have hsorted := List.pairwise_cons.mp (hopen ▸ pairwise_openBefore es k)
  rw [openAt_exit he, hopen] at hjk hlast
  -- The block that is left is not `j`, which is still open afterwards.
  have hjouter : j ∈ outer := by
    have hstill := h.mem_openBefore_of_le hi hj (Nat.lt_succ_of_le (le_of_innermost hk)) hki
    rwa [openBefore_exit he, hopen, List.tail_cons] at hstill
  have hjl : j < l := hsorted.1 j hjouter
  cases hp : p o.kind.tag with
  | false => rfl
  | true =>
    have hlj : l ≤ j := hlast l List.mem_cons_self ((entersAt_enter hl).trans hp)
    omega

/-- In the end, no block is open. -/
theorem openBefore_length (h : WellNested es) : openBefore es es.length = [] := by
  obtain ⟨pair, hpair⟩ := h
  refine List.eq_nil_iff_forall_not_mem.mpr fun j hj => ?_
  obtain ⟨k, hp, -, hk⟩ := (hpair.mem_openBefore_iff (Nat.le_refl _)).mp hj
  exact absurd (hpair.lt_length hp).2 (Nat.not_lt.mpr hk)

end WellNested

end

end DocTree
