import DocTree.Block.Fault
import DocTree.Event
import Mathlib.Data.Set.Function

/-!
# Well-nested events

The events of a tree are brackets: what is entered is left again, and whatever is entered in between
is left before that. This file says which sequences of events come from trees, and that none comes
from two.

**Nesting.** A sequence is well nested (`WellNested`) if its positions can be paired so that every
enter belongs to one exit that closes it, every exit to one enter, and no two pairs cross.

**Balance.** A reader with a stack of open enters comes to the same verdict (`balanced_iff`). The
events of any tree are balanced, valid or not.

**Rebuilding.** `rebuild` reads the blocks back from their events. It is the inverse of traversal on
lists of valid blocks (`rebuild_eq_some_iff`).

Main result: `eventsList_bijOn`.
-/

namespace DocTree

namespace Event

/-- The data that an event carries. -/
def content : Event → Kind × StringMap
  | enter o | exit o => (.container o.kind, o.parameters)
  | leaf a => (.leaf a.kind, a.parameters)

/-- An event leaves what another one entered: its kind closes the other's kind, and both carry the
same data. -/
def Closes (e b : Event) : Prop := e.kind.opening? = some b.kind ∧ e.content = b.content

instance (e b : Event) : Decidable (e.Closes b) := inferInstanceAs (Decidable (_ ∧ _))

theorem closes_iff {e b : Event} : e.Closes b ↔ ∃ o, b = .enter o ∧ e = .exit o := by
  constructor
  · rintro ⟨hk, hc⟩
    cases e with
    | enter o => simp [kind, EventKind.opening?] at hk
    | leaf a => simp [kind, EventKind.opening?] at hk
    | exit o =>
      cases b with
      | exit o' => simp [kind, EventKind.opening?] at hk
      | leaf a => simp [kind, EventKind.opening?] at hk
      | enter o' =>
        simp only [content, Prod.mk.injEq, Kind.container.injEq] at hc
        refine ⟨o, ?_, rfl⟩
        cases o; cases o'
        simp_all
  · rintro ⟨o, rfl, rfl⟩
    exact ⟨rfl, rfl⟩

end Event

open Event

/-! ## Nesting -/

/-- A pairing of enters with exits, by their positions. -/
structure Pairing (es : List Event) (pair : Nat → Nat → Prop) : Prop where
  /-- The later event of a pair closes the earlier one. -/
  closes : ∀ i j, pair i j → i < j ∧ ∃ b e, es[i]? = some b ∧ es[j]? = some e ∧ e.Closes b
  enter : ∀ i b, es[i]? = some b → b.kind.isEnter = true → ∃! j, pair i j
  exit : ∀ j e, es[j]? = some e → e.kind.isExit = true → ∃! i, pair i j
  /-- What begins inside a pair ends there. -/
  nested : ∀ i j i' j', pair i j → pair i' j' → i < i' → i' < j → j' < j

/-- Enters and exits can be paired without crossing. -/
def WellNested (es : List Event) : Prop := ∃ pair, Pairing es pair

namespace Pairing

variable {as bs es : List Event} {p q pair : Nat → Nat → Prop}

theorem lt_length (h : Pairing es pair) {i j : Nat} (hij : pair i j) :
    i < es.length ∧ j < es.length := by
  obtain ⟨-, b, e, hb, he, -⟩ := h.closes i j hij
  exact ⟨(List.getElem?_eq_some_iff.mp hb).1, (List.getElem?_eq_some_iff.mp he).1⟩

theorem nil : Pairing [] fun _ _ => False where
  closes := by simp
  enter := by simp
  exit := by simp
  nested := by simp

/-- A leaf is not part of any pair. -/
theorem leaf (a : Atom) : Pairing [.leaf a] fun _ _ => False where
  closes := by simp
  enter := by
    intro i b hb
    obtain ⟨rfl⟩ : b = .leaf a := by
      have := List.mem_of_getElem? hb
      simpa using this
    simp [kind, EventKind.isEnter]
  exit := by
    intro j e he
    obtain ⟨rfl⟩ : e = .leaf a := by
      have := List.mem_of_getElem? he
      simpa using this
    simp [kind, EventKind.isExit]
  nested := by simp

/-- The pairs of two sequences, one after the other. -/
theorem append (ha : Pairing as p) (hb : Pairing bs q) :
    Pairing (as ++ bs) fun i j =>
      p i j ∨ (as.length ≤ i ∧ as.length ≤ j ∧ q (i - as.length) (j - as.length)) where
  closes := by
    rintro i j (hij | ⟨hi, hj, hij⟩)
    · obtain ⟨hi, hj⟩ := ha.lt_length hij
      rw [List.getElem?_append_left hi, List.getElem?_append_left hj]
      exact ha.closes i j hij
    · obtain ⟨hlt, h⟩ := hb.closes _ _ hij
      rw [List.getElem?_append_right hi, List.getElem?_append_right hj]
      exact ⟨by omega, h⟩
  enter := by
    intro i b hib hbk
    by_cases hi : i < as.length
    · rw [List.getElem?_append_left hi] at hib
      obtain ⟨j, hj, huniq⟩ := ha.enter i b hib hbk
      refine ⟨j, Or.inl hj, ?_⟩
      rintro j' (hj' | ⟨hi', -⟩)
      · exact huniq j' hj'
      · omega
    · rw [List.getElem?_append_right (by omega)] at hib
      obtain ⟨j, hj, huniq⟩ := hb.enter _ b hib hbk
      refine ⟨j + as.length, Or.inr ⟨by omega, by omega, by simpa using hj⟩, ?_⟩
      rintro j' (hj' | ⟨-, hj', hq⟩)
      · exact absurd (ha.lt_length hj').1 hi
      · have := huniq _ hq
        omega
  exit := by
    intro j e hje hek
    by_cases hj : j < as.length
    · rw [List.getElem?_append_left hj] at hje
      obtain ⟨i, hi, huniq⟩ := ha.exit j e hje hek
      refine ⟨i, Or.inl hi, ?_⟩
      rintro i' (hi' | ⟨-, hj', -⟩)
      · exact huniq i' hi'
      · omega
    · rw [List.getElem?_append_right (by omega)] at hje
      obtain ⟨i, hi, huniq⟩ := hb.exit _ e hje hek
      refine ⟨i + as.length, Or.inr ⟨by omega, by omega, by simpa using hi⟩, ?_⟩
      rintro i' (hi' | ⟨hi', -, hq⟩)
      · exact absurd (ha.lt_length hi').2 hj
      · have := huniq _ hq
        omega
  nested := by
    rintro i j i' j' (h | ⟨hi, hj, h⟩) (h' | ⟨hi', hj', h'⟩) hlt hin
    · exact ha.nested i j i' j' h h' hlt hin
    · have := (ha.lt_length h).2
      omega
    · have := (ha.lt_length h').1
      omega
    · have := hb.nested _ _ _ _ h h' (by omega) (by omega)
      omega

theorem getElem?_enclosed (o : Opening) (as : List Event) (i : Nat) :
    (.enter o :: as ++ [.exit o])[i]? =
      if i = 0 then some (.enter o) else if i = as.length + 1 then some (.exit o)
      else as[i - 1]? := by
  cases i with
  | zero => rfl
  | succ i =>
    rw [List.cons_append, List.getElem?_cons_succ, List.getElem?_append]
    rcases Nat.lt_trichotomy i as.length with hi | rfl | hi
    · rw [if_pos hi, if_neg (by omega), if_neg (by omega), Nat.add_sub_cancel]
    · simp
    · rw [if_neg (by omega), if_neg (by omega), if_neg (by omega), Nat.add_sub_cancel,
        List.getElem?_eq_none (by simp; omega), List.getElem?_eq_none (by omega)]

/-- The pairs of a sequence between an enter and its exit, and this pair around them. -/
theorem enclose (o : Opening) (ha : Pairing as p) :
    Pairing (.enter o :: as ++ [.exit o]) fun i j =>
      (i = 0 ∧ j = as.length + 1) ∨ (1 ≤ i ∧ 1 ≤ j ∧ p (i - 1) (j - 1)) where
  closes := by
    rintro i j (⟨rfl, rfl⟩ | ⟨hi, hj, hij⟩)
    · refine ⟨by omega, .enter o, .exit o, rfl, ?_, closes_iff.mpr ⟨o, rfl, rfl⟩⟩
      rw [getElem?_enclosed, if_neg (by omega), if_pos rfl]
    · obtain ⟨hli, hlj⟩ := ha.lt_length hij
      obtain ⟨hlt, h⟩ := ha.closes _ _ hij
      rw [getElem?_enclosed, if_neg (by omega), if_neg (by omega), getElem?_enclosed,
        if_neg (by omega), if_neg (by omega)]
      exact ⟨by omega, h⟩
  enter := by
    intro i b hib hbk
    rw [getElem?_enclosed] at hib
    split at hib
    · subst i
      refine ⟨as.length + 1, Or.inl ⟨rfl, rfl⟩, ?_⟩
      rintro j (⟨-, rfl⟩ | ⟨hi, -⟩)
      · rfl
      · omega
    · split at hib
      · obtain rfl := Option.some.inj hib
        simp [kind, EventKind.isEnter] at hbk
      · obtain ⟨j, hj, huniq⟩ := ha.enter _ b hib hbk
        refine ⟨j + 1, Or.inr ⟨by omega, by omega, by simpa using hj⟩, ?_⟩
        rintro k (⟨rfl, -⟩ | ⟨-, hk, hik⟩)
        · omega
        · have := huniq _ hik
          omega
  exit := by
    intro j e hje hek
    rw [getElem?_enclosed] at hje
    split at hje
    · obtain rfl := Option.some.inj hje
      simp [kind, EventKind.isExit] at hek
    · split at hje
      · subst j
        refine ⟨0, Or.inl ⟨rfl, rfl⟩, ?_⟩
        rintro i (⟨rfl, -⟩ | ⟨-, -, hij⟩)
        · rfl
        · have := (ha.lt_length hij).2
          omega
      · obtain ⟨i, hi, huniq⟩ := ha.exit _ e hje hek
        refine ⟨i + 1, Or.inr ⟨by omega, by omega, by simpa using hi⟩, ?_⟩
        rintro k (⟨-, rfl⟩ | ⟨hk, -, hkj⟩)
        · have := (ha.lt_length hi).2
          omega
        · have := huniq _ hkj
          omega
  nested := by
    rintro i j i' j' (⟨rfl, rfl⟩ | ⟨hi, hj, h⟩) (⟨rfl, rfl⟩ | ⟨hi', hj', h'⟩) hlt hin
    · omega
    · have := (ha.lt_length h').2
      omega
    · omega
    · have := ha.nested _ _ _ _ h h' (by omega) (by omega)
      omega

/-- A part of the sequence keeps its pairs if no pair leads out of it. -/
theorem window (as ms bs : List Event) (h : Pairing (as ++ ms ++ bs) pair)
    (hin : ∀ i j, pair i j → (as.length ≤ i ∧ i < as.length + ms.length ↔
      as.length ≤ j ∧ j < as.length + ms.length)) :
    Pairing ms fun i j =>
      pair (i + as.length) (j + as.length) ∧ i < ms.length ∧ j < ms.length := by
  have get : ∀ i, i < ms.length → (as ++ ms ++ bs)[i + as.length]? = ms[i]? := by
    intro i hi
    rw [List.append_assoc, List.getElem?_append_right (by omega), Nat.add_sub_cancel,
      List.getElem?_append_left hi]
  exact {
    closes := by
      rintro i j ⟨hij, hi, hj⟩
      obtain ⟨hlt, b, e, hb, he, hc⟩ := h.closes _ _ hij
      rw [get i hi] at hb
      rw [get j hj] at he
      exact ⟨by omega, b, e, hb, he, hc⟩
    enter := by
      intro i b hib hbk
      have hi := (List.getElem?_eq_some_iff.mp hib).1
      obtain ⟨j, hj, huniq⟩ := h.enter _ b ((get i hi).trans hib) hbk
      have hjin := (hin _ _ hj).mp ⟨by omega, by omega⟩
      refine ⟨j - as.length, ⟨?_, hi, by omega⟩, ?_⟩
      · rwa [Nat.sub_add_cancel hjin.1]
      · rintro k ⟨hk, -⟩
        have := huniq _ hk
        omega
    exit := by
      intro j e hje hek
      have hj := (List.getElem?_eq_some_iff.mp hje).1
      obtain ⟨i, hi, huniq⟩ := h.exit _ e ((get j hj).trans hje) hek
      have hiin := (hin _ _ hi).mpr ⟨by omega, by omega⟩
      refine ⟨i - as.length, ⟨?_, by omega, hj⟩, ?_⟩
      · rwa [Nat.sub_add_cancel hiin.1]
      · rintro k ⟨hk, -⟩
        have := huniq _ hk
        omega
    nested := by
      rintro i j i' j' ⟨hij, -⟩ ⟨hij', -⟩ hlt hlt'
      have := h.nested _ _ _ _ hij hij' (by omega) (by omega)
      omega }

/-! ### The first pair -/

theorem tail_of_leaf {a : Atom} (h : Pairing (.leaf a :: es) pair) : WellNested es := by
  refine ⟨_, window [.leaf a] es [] (by simpa using h) fun i j hij => ?_⟩
  obtain ⟨hlt, b, e, hb, -, hc⟩ := h.closes i j hij
  obtain ⟨hi, hj⟩ := h.lt_length hij
  have hne : i ≠ 0 := by
    rintro rfl
    obtain ⟨o, rfl, -⟩ := closes_iff.mp hc
    simp at hb
  simp only [List.length_cons, List.length_nil] at hi hj ⊢
  omega

theorem not_exit_first {o : Opening} : ¬ Pairing (.exit o :: es) pair := by
  intro h
  obtain ⟨i, hi, -⟩ := h.exit 0 (.exit o) rfl rfl
  have := (h.closes i 0 hi).1
  omega

/-- The first enter has its exit, and both what lies between and what comes after is well nested. -/
theorem exists_enclosed {o : Opening} (h : Pairing (.enter o :: es) pair) :
    ∃ inner rest, es = inner ++ .exit o :: rest ∧ WellNested inner ∧ WellNested rest := by
  obtain ⟨j, hj, huniq⟩ := h.enter 0 (.enter o) rfl rfl
  obtain ⟨hpos, b, e, hb, he, hc⟩ := h.closes 0 j hj
  obtain ⟨o', rfl, rfl⟩ := closes_iff.mp hc
  obtain rfl : o = o' := by simpa using hb
  obtain ⟨k, rfl⟩ : ∃ k, j = k + 1 := ⟨j - 1, by omega⟩
  rw [List.getElem?_cons_succ] at he
  obtain ⟨hk, hget⟩ := List.getElem?_eq_some_iff.mp he
  have hes : es = es.take k ++ .exit o :: es.drop (k + 1) := by
    rw [← hget, ← List.drop_eq_getElem_cons hk, List.take_append_drop]
  have hlen : (es.take k).length = k := by rw [List.length_take]; omega
  -- A pair other than the first one lies inside it or behind it.
  have sides : ∀ i m, pair i m → (i = 0 ∧ m = k + 1) ∨ (0 < i ∧ m < k + 1) ∨ k + 1 < i := by
    intro i m him
    obtain ⟨hlt, b, e, hb, -, hc⟩ := h.closes i m him
    rcases Nat.eq_zero_or_pos i with rfl | hi
    · exact Or.inl ⟨rfl, huniq m him⟩
    · rcases Nat.lt_trichotomy i (k + 1) with hik | rfl | hik
      · exact Or.inr (Or.inl ⟨hi, h.nested _ _ _ _ hj him hi hik⟩)
      · obtain ⟨o', rfl, -⟩ := closes_iff.mp hc
        rw [List.getElem?_cons_succ, he] at hb
        simp at hb
      · exact Or.inr (Or.inr hik)
  refine ⟨es.take k, es.drop (k + 1), hes, ?_, ?_⟩
  · refine ⟨_, window [.enter o] (es.take k) (.exit o :: es.drop (k + 1))
      (by rw [List.append_assoc, ← hes]; exact h) fun i m him => ?_⟩
    have := (h.closes i m him).1
    have := sides i m him
    simp only [List.length_cons, List.length_nil, hlen]
    omega
  · refine ⟨_, window (.enter o :: es.take k ++ [.exit o]) (es.drop (k + 1)) []
      (by simpa [← hes] using h) fun i m him => ?_⟩
    have := (h.closes i m him).1
    have := h.lt_length him
    have := sides i m him
    simp only [List.length_append, List.length_cons, List.length_nil, hlen,
      List.length_drop] at this ⊢
    simp only [List.length_cons] at *
    omega

end Pairing

/-! ## Events of trees are well nested -/

namespace Block

/-- A list of blocks each of which events can express. -/
def ValidForest (bs : List Block) : Prop := ∀ b ∈ bs, b.Valid

theorem validForest_cons_iff {k : Kind} {cs bs : List Block} {ps : StringMap} :
    ValidForest (⟨k, cs, ps⟩ :: bs) ↔
      ((k.tag.isContainer = false → cs = []) ∧ (k.tag.emitsParameters = false → ps = ∅)) ∧
        ValidForest cs ∧ ValidForest bs := by
  unfold ValidForest
  rw [List.forall_mem_cons, valid_mk_iff, and_assoc]

theorem ValidForest.reverse {bs : List Block} (h : ValidForest bs) : ValidForest bs.reverse :=
  fun b hb => h b (List.mem_reverse.mp hb)

/-- The block that a pair of events encloses. -/
def ofOpening (o : Opening) (children : List Block) : Block :=
  ⟨.container o.kind, children, o.parameters⟩

def ofAtom (a : Atom) : Block := ⟨.leaf a.kind, [], a.parameters⟩

theorem ofBlock_opening (o : Opening) : Opening.ofBlock o.kind o.parameters = o := by
  obtain ⟨k, ps, hc⟩ := o
  cases h : k.tag.emitsParameters with
  | false => simp [Opening.ofBlock, h, hc h]
  | true => simp [Opening.ofBlock, h]

theorem ofBlock_atom (a : Atom) : Atom.ofBlock a.kind a.parameters = a := by
  obtain ⟨k, ps, hc⟩ := a
  cases h : k.tag.emitsParameters with
  | false => simp [Atom.ofBlock, h, hc h]
  | true => simp [Atom.ofBlock, h]

theorem eventsList_ofOpening (o : Opening) (cs bs : List Block) :
    eventsList (ofOpening o cs :: bs) =
      .enter o :: eventsList cs ++ .exit o :: eventsList bs := by
  simp [eventsList, events, ofOpening, ofBlock_opening]

theorem eventsList_ofAtom (a : Atom) (bs : List Block) :
    eventsList (ofAtom a :: bs) = .leaf a :: eventsList bs := by
  simp [eventsList, events, ofAtom, ofBlock_atom]

theorem validForest_ofOpening {o : Opening} {cs bs : List Block} :
    ValidForest (ofOpening o cs :: bs) ↔ ValidForest cs ∧ ValidForest bs := by
  unfold ofOpening
  rw [validForest_cons_iff]
  have hc : o.kind.tag.emitsParameters = false → o.parameters = ∅ := o.carried
  constructor
  · exact fun h => h.2
  · exact fun h => ⟨⟨nofun, hc⟩, h⟩

theorem validForest_ofAtom {a : Atom} {bs : List Block} :
    ValidForest (ofAtom a :: bs) ↔ ValidForest bs := by
  unfold ofAtom
  rw [validForest_cons_iff]
  exact ⟨fun h => h.2.2, fun h => ⟨⟨fun _ => rfl, a.carried⟩, by simp [ValidForest], h⟩⟩

theorem wellNested_eventsList (bs : List Block) : WellNested (eventsList bs) := by
  induction bs using forestInduction with
  | nil => exact ⟨_, Pairing.nil⟩
  | cons k cs ps bs ihc ihb =>
    obtain ⟨p, hp⟩ := ihc
    obtain ⟨q, hq⟩ := ihb
    cases k with
    | container c => exact ⟨_, (Pairing.enclose (.ofBlock c ps) hp).append hq⟩
    | leaf l => exact ⟨_, (Pairing.leaf (.ofBlock l ps)).append hq⟩

/-- Well-nested events come from valid blocks. -/
theorem exists_validForest :
    ∀ es : List Event, WellNested es → ∃ bs, ValidForest bs ∧ eventsList bs = es
  | [], _ => ⟨[], by simp [ValidForest], rfl⟩
  | .exit o :: es, ⟨_, hp⟩ => absurd hp Pairing.not_exit_first
  | .leaf a :: es, ⟨_, hp⟩ => by
    obtain ⟨bs, hv, rfl⟩ := exists_validForest es hp.tail_of_leaf
    exact ⟨ofAtom a :: bs, validForest_ofAtom.mpr hv, eventsList_ofAtom a bs⟩
  | .enter o :: es, ⟨_, hp⟩ => by
    obtain ⟨inner, rest, hes, hi, hr⟩ := hp.exists_enclosed
    obtain ⟨cs, hcs, rfl⟩ := exists_validForest inner hi
    obtain ⟨bs, hbs, rfl⟩ := exists_validForest rest hr
    exact ⟨ofOpening o cs :: bs, validForest_ofOpening.mpr ⟨hcs, hbs⟩,
      hes ▸ eventsList_ofOpening o cs bs⟩
termination_by es => es.length
decreasing_by all_goals simp_all; try omega

end Block

/-! ## Balance -/

/-- The enters that are open after some events, innermost first; nothing if an exit does not close
the innermost one. -/
def openAfter : (stack : List Event) → List Event → Option (List Event)
  | stack, [] => some stack
  | stack, e :: es =>
    if e.kind.isEnter then openAfter (e :: stack) es
    else if e.kind.isExit then
      match stack with
      | [] => none
      | b :: stack => if e.Closes b then openAfter stack es else none
    else openAfter stack es

/-- Every exit closes the enter opened last, and none stays open. -/
def Balanced (es : List Event) : Prop := openAfter [] es = some []

@[simp] theorem openAfter_enter (stack : List Event) (o : Opening) (es : List Event) :
    openAfter stack (.enter o :: es) = openAfter (.enter o :: stack) es := rfl

@[simp] theorem openAfter_leaf (stack : List Event) (a : Atom) (es : List Event) :
    openAfter stack (.leaf a :: es) = openAfter stack es := rfl

@[simp] theorem openAfter_nil_exit (o : Opening) (es : List Event) :
    openAfter [] (.exit o :: es) = none := rfl

@[simp] theorem openAfter_exit (stack : List Event) (o o' : Opening) (es : List Event) :
    openAfter (.enter o :: stack) (.exit o' :: es) =
      if o = o' then openAfter stack es else none := by
  have hc : (Event.exit o').Closes (.enter o) ↔ o = o' := by
    rw [closes_iff]
    constructor
    · rintro ⟨_, h₁, h₂⟩
      cases h₁; cases h₂
      rfl
    · rintro rfl
      exact ⟨o, rfl, rfl⟩
  show (if (Event.exit o').Closes (.enter o) then openAfter stack es else none) = _
  exact if_congr hc rfl rfl

/-- The events of blocks leave the stack as it is. -/
theorem openAfter_eventsList (bs : List Block) (stack rest : List Event) :
    openAfter stack (Block.eventsList bs ++ rest) = openAfter stack rest := by
  induction bs using Block.forestInduction generalizing stack rest with
  | nil => rfl
  | cons k cs ps bs ihc ihb =>
    cases k with
    | container c =>
      simp only [Block.eventsList, Block.events, List.cons_append, List.append_assoc,
        List.nil_append, openAfter_enter]
      rw [ihc, openAfter_exit, if_pos rfl, ihb]
    | leaf l =>
      simp only [Block.eventsList, Block.events, List.cons_append, List.nil_append,
        openAfter_leaf]
      exact ihb stack rest

theorem balanced_events (b : Block) : Balanced b.events := by
  have h := openAfter_eventsList [b] [] []
  rwa [List.append_nil, Block.eventsList, Block.eventsList, List.append_nil] at h

/-! ## Rebuilding -/

namespace Block

/-- Read blocks back from their events. `outer` are the containers that are open, each with the
blocks before it, and `done` the blocks that are complete; both with the latest first. -/
def rebuild (outer : List (Opening × List Block)) (done : List Block) :
    List Event → Option (List Block)
  | [] =>
    match outer with
    | [] => some done.reverse
    | _ :: _ => none
  | .leaf a :: es => rebuild outer (ofAtom a :: done) es
  | .enter o :: es => rebuild ((o, done) :: outer) [] es
  | .exit o :: es =>
    match outer with
    | [] => none
    | (o', earlier) :: outer =>
      if o' = o then rebuild outer (ofOpening o done.reverse :: earlier) es else none

/-- The events that led to a state of `rebuild`. -/
def readSoFar : (outer : List (Opening × List Block)) → (done : List Block) → List Event
  | [], done => eventsList done.reverse
  | (o, earlier) :: outer, done =>
    readSoFar outer earlier ++ .enter o :: eventsList done.reverse

theorem readSoFar_append (outer : List (Opening × List Block)) (done bs : List Block) :
    readSoFar outer (bs.reverse ++ done) = readSoFar outer done ++ eventsList bs := by
  cases outer <;> simp [readSoFar, eventsList_append]

theorem readSoFar_ofAtom (outer : List (Opening × List Block)) (done : List Block) (a : Atom) :
    readSoFar outer (ofAtom a :: done) = readSoFar outer done ++ [.leaf a] := by
  have h := readSoFar_append outer done [ofAtom a]
  rwa [eventsList_ofAtom] at h

theorem readSoFar_ofOpening (outer : List (Opening × List Block)) (done earlier : List Block)
    (o : Opening) :
    readSoFar outer (ofOpening o done.reverse :: earlier) =
      readSoFar ((o, earlier) :: outer) done ++ [.exit o] := by
  have h := readSoFar_append outer earlier [ofOpening o done.reverse]
  rw [eventsList_ofOpening] at h
  rw [readSoFar, List.append_assoc]
  exact h

/-- Rebuilding undoes traversal. -/
theorem rebuild_eventsList {bs : List Block} (hv : ValidForest bs)
    (outer : List (Opening × List Block)) (done : List Block) (es : List Event) :
    rebuild outer done (eventsList bs ++ es) = rebuild outer (bs.reverse ++ done) es := by
  induction bs using forestInduction generalizing outer done es with
  | nil => rfl
  | cons k cs ps bs ihc ihb =>
    obtain ⟨⟨hleaf, hparams⟩, hcs, hbs⟩ := validForest_cons_iff.mp hv
    cases k with
    | container c =>
      let o : Opening := ⟨c, ps, hparams⟩
      show rebuild outer done (eventsList (ofOpening o cs :: bs) ++ es) = _
      rw [eventsList_ofOpening, List.cons_append, List.cons_append, List.append_assoc, rebuild,
        ihc hcs, List.cons_append, rebuild, if_pos rfl, ihb hbs]
      simp [ofOpening, o]
    | leaf l =>
      obtain rfl := hleaf rfl
      let a : Atom := ⟨l, ps, hparams⟩
      show rebuild outer done (eventsList (ofAtom a :: bs) ++ es) = _
      rw [eventsList_ofAtom, List.cons_append, rebuild, ihb hbs]
      simp [ofAtom, a]

/-- What is rebuilt has the events that were read. -/
theorem eventsList_of_rebuild {outer : List (Opening × List Block)} {done : List Block}
    {es : List Event} {bs : List Block} (h : rebuild outer done es = some bs) :
    eventsList bs = readSoFar outer done ++ es := by
  induction es generalizing outer done with
  | nil =>
    cases outer with
    | nil =>
      obtain rfl := Option.some.inj h
      simp [readSoFar]
    | cons f outer => simp [rebuild] at h
  | cons e es ih =>
    cases e with
    | leaf a => rw [ih h, readSoFar_ofAtom, List.append_assoc, List.singleton_append]
    | enter o => rw [ih h, readSoFar, List.append_assoc]; rfl
    | exit o =>
      cases outer with
      | nil => simp [rebuild] at h
      | cons f outer =>
        obtain ⟨o', earlier⟩ := f
        rw [rebuild] at h
        split at h
        · subst o'
          rw [ih h, readSoFar_ofOpening, List.append_assoc, List.singleton_append]
        · cases h

/-- What is rebuilt is valid, if what was complete before is. -/
theorem validForest_of_rebuild {outer : List (Opening × List Block)} {done : List Block}
    {es : List Event} {bs : List Block} (h : rebuild outer done es = some bs)
    (hd : ValidForest done) (ho : ∀ f ∈ outer, ValidForest f.2) : ValidForest bs := by
  induction es generalizing outer done with
  | nil =>
    cases outer with
    | nil =>
      obtain rfl := Option.some.inj h
      exact hd.reverse
    | cons f outer => simp [rebuild] at h
  | cons e es ih =>
    cases e with
    | leaf a => exact ih h (validForest_ofAtom.mpr hd) ho
    | enter o =>
      have hnone : ValidForest [] := fun _ hb => absurd hb List.not_mem_nil
      refine ih h hnone fun f hf => ?_
      rcases List.mem_cons.mp hf with rfl | hf
      · exact hd
      · exact ho f hf
    | exit o =>
      cases outer with
      | nil => simp [rebuild] at h
      | cons f outer =>
        obtain ⟨o', earlier⟩ := f
        rw [rebuild] at h
        split at h
        · refine ih h (validForest_ofOpening.mpr ⟨hd.reverse, ?_⟩) fun f hf => ?_
          · exact ho (o', earlier) List.mem_cons_self
          · exact ho f (List.mem_cons_of_mem _ hf)
        · cases h

theorem rebuild_eq_some_iff {es : List Event} {bs : List Block} :
    rebuild [] [] es = some bs ↔ ValidForest bs ∧ eventsList bs = es := by
  constructor
  · intro h
    exact ⟨validForest_of_rebuild h (by simp [ValidForest]) (by simp),
      eventsList_of_rebuild h⟩
  · rintro ⟨hv, rfl⟩
    have h := rebuild_eventsList hv [] [] []
    simpa [rebuild] using h

/-- A stack of enters is emptied by the events that `rebuild` accepts. -/
theorem isSome_rebuild_of_openAfter (outer : List (Opening × List Block)) (done : List Block)
    {es : List Event} (h : openAfter (outer.map fun f => .enter f.1) es = some []) :
    (rebuild outer done es).isSome = true := by
  induction es generalizing outer done with
  | nil =>
    cases outer with
    | nil => rfl
    | cons f outer => simp [openAfter] at h
  | cons e es ih =>
    cases e with
    | leaf a => exact ih _ _ h
    | enter o => exact ih _ _ h
    | exit o =>
      cases outer with
      | nil => simp at h
      | cons f outer =>
        rw [List.map_cons, openAfter_exit] at h
        rw [rebuild]
        split at h
        · rw [if_pos ‹_›]
          exact ih _ _ h
        · cases h

end Block

/-! ## Main results -/

/-- The stack discipline and the pairing of positions agree. -/
theorem balanced_iff {es : List Event} : Balanced es ↔ WellNested es := by
  constructor
  · intro h
    obtain ⟨bs, hbs⟩ :=
      Option.isSome_iff_exists.mp (Block.isSome_rebuild_of_openAfter [] [] h)
    obtain ⟨-, rfl⟩ := Block.rebuild_eq_some_iff.mp hbs
    exact Block.wellNested_eventsList bs
  · intro h
    obtain ⟨bs, -, rfl⟩ := Block.exists_validForest es h
    have := openAfter_eventsList bs [] []
    rwa [List.append_nil] at this

theorem injOn_eventsList : Set.InjOn Block.eventsList {bs | Block.ValidForest bs} := by
  intro as ha bs hb h
  have hr := Block.rebuild_eq_some_iff.mpr ⟨ha, h⟩
  rw [Block.rebuild_eq_some_iff.mpr ⟨hb, rfl⟩] at hr
  exact (Option.some.inj hr).symm

/-- **Traversal is a bijection** between lists of valid blocks and well-nested sequences of events.
The events of every single tree are balanced, also if it is not valid. -/
theorem eventsList_bijOn :
    Set.BijOn Block.eventsList {bs | ∀ b ∈ bs, b.Valid} {es | WellNested es} ∧
      ∀ b : Block, Balanced b.events := by
  refine ⟨⟨fun bs _ => Block.wellNested_eventsList bs, injOn_eventsList, fun es h => ?_⟩,
    balanced_events⟩
  obtain ⟨bs, hv, he⟩ := Block.exists_validForest es h
  exact ⟨bs, hv, he⟩

end DocTree
