/-!
# Ranked lists

A list is kept in the order of a rank by putting each new element behind all those that do not come
after it, so that elements of one rank stay in the order in which they came. Elements that were put
in one by one are in the order that a stable sort of all of them gives (`ofList_eq_mergeSort`).
-/

namespace DocTree.Ranking

variable {α : Type u} (rank : α → Int)

/-- Put an element before the first one of a higher rank. -/
def insert (a : α) : List α → List α
  | [] => [a]
  | b :: bs => if rank b ≤ rank a then b :: insert a bs else a :: b :: bs

@[simp] theorem mem_insert {a x : α} {xs : List α} : x ∈ insert rank a xs ↔ x = a ∨ x ∈ xs := by
  induction xs with
  | nil => simp [insert]
  | cons b bs ih =>
    unfold insert
    split
    · simp only [List.mem_cons, ih]; grind
    · simp

theorem insert_sorted {a : α} {xs : List α} (h : xs.Pairwise (rank · ≤ rank ·)) :
    (insert rank a xs).Pairwise (rank · ≤ rank ·) := by
  induction xs with
  | nil => simp [insert]
  | cons b bs ih =>
    rw [List.pairwise_cons] at h
    unfold insert
    split
    · refine List.pairwise_cons.mpr ⟨fun x hx => ?_, ih h.2⟩
      rcases (mem_insert rank).mp hx with rfl | hx
      · assumption
      · exact h.1 x hx
    · rename_i hlt
      refine List.pairwise_cons.mpr ⟨fun x hx => ?_, List.pairwise_cons.mpr h⟩
      rcases List.mem_cons.mp hx with rfl | hx
      · omega
      · exact Int.le_trans (by omega) (h.1 x hx)

/-- Put elements into an empty list one after the other. -/
def ofList (xs : List α) : List α := xs.foldl (fun acc a => insert rank a acc) []

theorem ofList_sorted (xs : List α) : (ofList rank xs).Pairwise (rank · ≤ rank ·) := by
  suffices ∀ acc : List α, acc.Pairwise (rank · ≤ rank ·) →
      (xs.foldl (fun acc a => insert rank a acc) acc).Pairwise (rank · ≤ rank ·) from
    this [] List.Pairwise.nil
  induction xs with
  | nil => exact fun _ h => h
  | cons x xs ih => exact fun acc h => ih _ (insert_sorted rank h)

/-! ## Elements of one rank -/

/-- An element comes behind the others of its rank. -/
theorem filter_insert {a : α} {xs : List α} (h : xs.Pairwise (rank · ≤ rank ·)) (r : Int) :
    (insert rank a xs).filter (rank · = r) = (xs ++ [a]).filter (rank · = r) := by
  induction xs with
  | nil => rfl
  | cons b bs ih =>
    rw [List.pairwise_cons] at h
    unfold insert
    split
    · rw [List.filter_cons, ih h.2, List.cons_append, List.filter_cons]
    · rename_i hlt
      rw [List.filter_append]
      by_cases ha : rank a = r
      · -- From the first element of a higher rank on, none is of the rank of `a`.
        have hnone : (b :: bs).filter (rank · = r) = [] := by
          refine List.filter_eq_nil_iff.mpr fun x hx hxr => ?_
          have hxr : rank x = r := of_decide_eq_true hxr
          rcases List.mem_cons.mp hx with rfl | hx
          · omega
          · have := h.1 x hx
            omega
        rw [List.filter_cons, hnone]
        simp [ha]
      · simp [List.filter_cons, ha]

theorem filter_ofList (xs : List α) (r : Int) :
    (ofList rank xs).filter (rank · = r) = xs.filter (rank · = r) := by
  suffices ∀ acc : List α, acc.Pairwise (rank · ≤ rank ·) →
      (xs.foldl (fun acc a => insert rank a acc) acc).filter (rank · = r) =
        (acc ++ xs).filter (rank · = r) from
    this [] List.Pairwise.nil
  induction xs with
  | nil => exact fun acc _ => by rw [List.foldl_nil, List.append_nil]
  | cons x xs ih =>
    intro acc h
    rw [List.foldl_cons, ih _ (insert_sorted rank h), List.filter_append, filter_insert rank h,
      ← List.filter_append, List.append_assoc, List.singleton_append]

/-- A list is determined, but for the order, by its elements of each rank. -/
theorem mem_iff_of_filter_eq {xs ys : List α}
    (h : ∀ r, xs.filter (rank · = r) = ys.filter (rank · = r)) (x : α) : x ∈ xs ↔ x ∈ ys := by
  simpa using congrArg (x ∈ ·) (h (rank x))

theorem mem_ofList {xs : List α} {x : α} : x ∈ ofList rank xs ↔ x ∈ xs :=
  mem_iff_of_filter_eq rank (filter_ofList rank xs) x

/-- What is found first in a ranked list has the least rank of all that could be found, and is found
first among the elements of that rank in the order in which they came. -/
theorem find?_ofList_eq_some {p : α → Bool} {xs : List α} {a : α}
    (h : (ofList rank xs).find? p = some a) :
    (∀ b ∈ xs, p b = true → rank a ≤ rank b) ∧
      (xs.filter (rank · = rank a)).find? p = some a := by
  obtain ⟨hp, before, after, hsplit, hbefore⟩ := List.find?_eq_some_iff_append.mp h
  have hnone : ∀ b ∈ before, ¬ p b = true := fun b hb hpb => by simpa [hpb] using hbefore b hb
  refine ⟨fun b hb hpb => ?_, ?_⟩
  · have hmem : b ∈ before ++ a :: after := hsplit ▸ (mem_ofList rank).mpr hb
    have hsorted := hsplit ▸ ofList_sorted rank xs
    rcases List.mem_append.mp hmem with hb | hb
    · exact absurd hpb (hnone b hb)
    · rcases List.mem_cons.mp hb with rfl | hb
      · exact Int.le_refl _
      · exact (List.pairwise_cons.mp (List.pairwise_append.mp hsorted).2.1).1 b hb
  · have hfirst : (before.filter (rank · = rank a)).find? p = none :=
      List.find?_eq_none.mpr fun b hb => hnone b (List.mem_filter.mp hb).1
    rw [← filter_ofList, hsplit, List.filter_append, List.find?_append, hfirst, Option.none_or,
      List.filter_cons, if_pos (decide_eq_true rfl), List.find?_cons, hp]

/-- A list by ascending rank is determined by its elements of each rank. -/
theorem eq_of_filter_eq {xs ys : List α} (hxs : xs.Pairwise (rank · ≤ rank ·))
    (hys : ys.Pairwise (rank · ≤ rank ·))
    (h : ∀ r, xs.filter (rank · = r) = ys.filter (rank · = r)) : xs = ys := by
  induction xs generalizing ys with
  | nil =>
    refine (List.eq_nil_iff_forall_not_mem.mpr fun y hy => ?_).symm
    exact nomatch (mem_iff_of_filter_eq rank h y).mpr hy
  | cons x xs ih =>
    cases ys with
    | nil => exact nomatch (mem_iff_of_filter_eq rank h x).mp List.mem_cons_self
    | cons y ys =>
      have hle : ∀ {b : α} {bs : List α}, (b :: bs).Pairwise (rank · ≤ rank ·) →
          ∀ a ∈ b :: bs, rank b ≤ rank a := by
        intro b bs hbs a ha
        rcases List.mem_cons.mp ha with rfl | ha
        · exact Int.le_refl _
        · exact (List.pairwise_cons.mp hbs).1 a ha
      -- Both heads are of the least rank, so each is the first one of that rank.
      have hrank : rank x = rank y :=
        Int.le_antisymm (hle hxs y ((mem_iff_of_filter_eq rank h y).mpr List.mem_cons_self))
          (hle hys x ((mem_iff_of_filter_eq rank h x).mp List.mem_cons_self))
      have hhead := h (rank y)
      simp only [List.filter_cons, hrank, decide_true, if_true] at hhead
      obtain rfl := (List.cons.inj hhead).1
      refine congrArg (x :: ·) (ih (List.pairwise_cons.mp hxs).2 (List.pairwise_cons.mp hys).2 ?_)
      intro r
      have hr := h r
      rw [List.filter_cons, List.filter_cons] at hr
      split at hr
      · exact (List.cons.inj hr).2
      · exact hr

/-- Ranking is the stable sort by rank. -/
theorem ofList_eq_mergeSort (xs : List α) :
    ofList rank xs = xs.mergeSort fun a b => rank a ≤ rank b := by
  have htrans : ∀ a b c : α, decide (rank a ≤ rank b) = true → decide (rank b ≤ rank c) = true →
      decide (rank a ≤ rank c) = true := by
    simp only [decide_eq_true_iff]
    intro a b c
    exact Int.le_trans
  have htotal : ∀ a b : α, (decide (rank a ≤ rank b) || decide (rank b ≤ rank a)) = true := by
    simp only [Bool.or_eq_true, decide_eq_true_iff]
    exact fun a b => Int.le_total _ _
  refine eq_of_filter_eq rank (ofList_sorted rank xs) ?_ fun r => ?_
  · exact (List.pairwise_mergeSort htrans htotal xs).imp of_decide_eq_true
  · -- What is sorted already stays in its order, and nothing else is of the rank.
    rw [filter_ofList]
    have hsorted : (xs.filter (rank · = r)).Pairwise fun a b => decide (rank a ≤ rank b) = true := by
      refine List.pairwise_iff_forall_sublist.mpr fun {a b} hab => ?_
      have ha := (List.mem_filter.mp (hab.subset List.mem_cons_self)).2
      have hb := (List.mem_filter.mp (hab.subset (List.mem_cons_of_mem _ List.mem_cons_self))).2
      simp only [decide_eq_true_iff] at ha hb ⊢
      omega
    have hsub := (List.sublist_mergeSort htrans htotal hsorted List.filter_sublist).filter
      (rank · = r)
    simp only [List.filter_filter, Bool.and_self] at hsub
    refine hsub.eq_of_length ?_
    exact ((List.mergeSort_perm xs _).filter _).length_eq.symm

/-- Ranking part of a list is taking that part of the ranked list. -/
theorem ofList_filter (p : α → Bool) (xs : List α) :
    ofList rank (xs.filter p) = (ofList rank xs).filter p := by
  have hswap : ∀ (r : Int) (zs : List α),
      (zs.filter p).filter (rank · = r) = (zs.filter (rank · = r)).filter p := by
    intro r zs
    simp only [List.filter_filter, Bool.and_comm]
  refine eq_of_filter_eq rank (ofList_sorted rank _) ((ofList_sorted rank xs).filter p) fun r => ?_
  rw [filter_ofList, hswap, hswap, filter_ofList]

end DocTree.Ranking
