import Mathlib.Data.List.Forall2
import Mathlib.Logic.Function.Basic
import Mathlib.Logic.Relation
import DocTree.Proofs.Chain.Places

/-!
# A registry of stages

What a chain is while it is built and restacked: an order of kinds, and for each kind a stack of
stages. Six operations update the two one by one, in any sequence and with any stages. Each has
guards of its own, and nothing in the definition ties the two together or keeps a stack from running
empty; that it does not come to this is what holds of them (`Registry.Sound`).

**The stage at the bottom** (`Stack.Rests`). It is the one that was first added under the kind. No
operation takes it away, though it may be shadowed any number of times (`Stack.Grounded`).

**The same stage** (`Stage.Same`). A stage that is asked for another one may change its state by
that, and is still the stage that it was.

## Main results

* `Registry.Sound.operate`: an operation keeps what holds of a registry.
* `Registry.eq_of_failed`, `Registry.unchanged_of_failed`: an operation that fails leaves the order
  and the stages in all stacks; at most, it has asked a stage for another one.
-/

namespace DocTree

variable {κ ω : Type}

/-! ## Operations -/

inductive Operation (κ ω : Type)
  | add (s : Stage κ ω)
  | push (kind : StageKind) (s : Stage κ ω)
  | shadow (kind : StageKind)
  | pop (kind : StageKind)
  | shadowAll
  | restoreAll

/-- What an operation answers. -/
inductive Answer (κ ω : Type)
  | done
  | popped (s : Stage κ ω)
  /-- There was nothing to pop. -/
  | nothing
  | refused (e : ChainError)

namespace Answer

variable {α : Type}

def failed : Answer κ ω → Bool
  | done | popped _ => false
  | nothing | refused _ => true

/-- The answer of an operation that may be refused, and what it leaves. -/
def ofChange (before : α) : Except ChainError α → Answer κ ω × α
  | .error e => (refused e, before)
  | .ok after => (done, after)

theorem ofChange_of_failed {before : α} {x : Except ChainError α}
    (h : (ofChange (κ := κ) (ω := ω) before x).1.failed = true) :
    (ofChange (κ := κ) (ω := ω) before x).2 = before := by
  cases x with
  | error e => rfl
  | ok after => cases h

/-- The answer of an operation that leaves something also if it is refused. -/
def ofAttempt : Except ChainError Unit × α → Answer κ ω × α
  | (.error e, after) => (refused e, after)
  | (.ok _, after) => (done, after)

/-- The answer of an operation that takes a stage away. -/
def ofPop (before : α) : Except ChainError (Option (Stage κ ω) × α) → Answer κ ω × α
  | .error e => (refused e, before)
  | .ok (none, after) => (nothing, after)
  | .ok (some s, after) => (popped s, after)

end Answer

/-! ## Registries -/

/-- The stages of a kind, the active one first. -/
abbrev Stack (κ ω : Type) := List (Stage κ ω)

/-- The order of the kinds, and the stacks of stages. -/
structure Registry (κ ω : Type) where
  order : List StageKind := []
  stack? : StageKind → Option (Stack κ ω) := fun _ => none

namespace Registry

/-- Change the stack of a kind, if there is one. -/
def adjust (r : Registry κ ω) (k : StageKind) (f : Stack κ ω → Stack κ ω) : Registry κ ω :=
  { r with stack? := Function.update r.stack? k ((r.stack? k).map f) }

def active? (r : Registry κ ω) (k : StageKind) : Option (Stage κ ω) := (r.stack? k).bind List.head?

theorem stack?_adjust (r : Registry κ ω) (k j : StageKind) (f : Stack κ ω → Stack κ ω) :
    (r.adjust k f).stack? j = (r.stack? j).map (if j = k then f else id) := by
  by_cases hj : j = k
  · subst hj
    rw [if_pos rfl]
    exact Function.update_self ..
  · rw [if_neg hj, Option.map_id]
    exact Function.update_of_ne hj ..

theorem adjust_congr {r : Registry κ ω} {k : StageKind} {f g : Stack κ ω → Stack κ ω}
    (h : (r.stack? k).map f = (r.stack? k).map g) : r.adjust k f = r.adjust k g := by
  rw [adjust, adjust, h]

theorem adjust_adjust (r : Registry κ ω) (k : StageKind) (f g : Stack κ ω → Stack κ ω) :
    (r.adjust k f).adjust k g = r.adjust k (g ∘ f) := by
  refine congrArg (mk r.order) ?_
  show Function.update (r.adjust k f).stack? k (((r.adjust k f).stack? k).map g) = _
  rw [stack?_adjust, if_pos rfl, Option.map_map]
  exact Function.update_idem ..

theorem adjust_id (r : Registry κ ω) (k : StageKind) : r.adjust k id = r := by
  rw [adjust, Option.map_id_apply, Function.update_eq_self]

/-- A change of several stacks, one after the other. -/
theorem foldl_adjust {f : Stack κ ω → Stack κ ω} {ks : List StageKind} (hks : ks.Nodup)
    (r : Registry κ ω) :
    ks.foldl (fun r k => r.adjust k f) r =
      { r with stack? := fun j => (r.stack? j).map (if j ∈ ks then f else id) } := by
  induction ks generalizing r with
  | nil => exact congrArg (mk r.order) (funext fun j => (Option.map_id_apply ..).symm)
  | cons k ks ih =>
    obtain ⟨hk, hks⟩ := List.nodup_cons.mp hks
    rw [List.foldl_cons, ih hks]
    refine congrArg (mk r.order) (funext fun j => ?_)
    rw [stack?_adjust, Option.map_map]
    refine congrArg (Option.map · (r.stack? j)) ?_
    by_cases hj : j = k
    · subst hj
      rw [if_neg hk, if_pos rfl, if_pos List.mem_cons_self, Function.id_comp]
    · simp only [hj, if_false, List.mem_cons, false_or, Function.comp_id]

/-- Take the active stage of a kind away, unless it is the last one. -/
def pop (r : Registry κ ω) (k : StageKind) :
    Except ChainError (Option (Stage κ ω) × Registry κ ω) :=
  match r.stack? k with
  | none => .error (.unknownStage k)
  | some st => if st.length ≤ 1 then .ok (none, r) else .ok (st.head?, r.adjust k List.tail)

/-- A stage that was put on a stack comes off again, and leaves the registry as it was. -/
theorem pop_adjust_cons {r : Registry κ ω} {k : StageKind} {st : Stack κ ω}
    (hst : r.stack? k = some st) (hne : st ≠ []) (s : Stage κ ω) :
    (r.adjust k (s :: ·)).pop k = .ok (some s, r) := by
  have hstack : (r.adjust k (s :: ·)).stack? k = some (s :: st) := by
    rw [stack?_adjust, hst, if_pos rfl, Option.map_some]
  have hlong : ¬ (s :: st).length ≤ 1 :=
    Nat.not_le.mpr (Nat.succ_lt_succ (List.length_pos_iff.mpr hne))
  have hback : (r.adjust k (s :: ·)).adjust k List.tail = r :=
    (adjust_adjust r k (s :: ·) List.tail).trans (adjust_id r k)
  simp only [pop, hstack, if_neg hlong, hback, List.head?_cons]

end Registry

variable [StageBehaviour κ ω]

/-! ## What was added -/

/-- The stage that an operation would add under a kind. -/
def Operation.stage? (k : StageKind) : Operation κ ω → Option (Stage κ ω)
  | .add s => if s.kind = k then some s else none
  | _ => none

/-- The stage that was first added under a kind. -/
def Operation.added? (ops : List (Operation κ ω)) (k : StageKind) : Option (Stage κ ω) :=
  ops.findSome? (Operation.stage? k)

/-! ## The same stage -/

namespace Stage

/-- The stage when it has been asked for another one. -/
def asked (s : Stage κ ω) : Stage κ ω := s.spawn.1

/-- The same stage, asked for others any number of times since. -/
abbrev Same : Stage κ ω → Stage κ ω → Prop := Relation.ReflTransGen fun s s' => s' = s.asked

/-- Stages that are told apart by what asking does not change are not the same. -/
theorem Same.eq_of_label {ι : Type} {label : Stage κ ω → ι} (hlabel : ∀ s, label s.asked = label s)
    {s s' : Stage κ ω} (h : s.Same s') : label s' = label s := by
  induction h with
  | refl => rfl
  | tail _ hstep ih => rw [hstep, hlabel, ih]

end Stage

/-! ## Stacks -/

namespace Stack

/-- The active stage is asked for another one. -/
def ask : Stack κ ω → Stack κ ω
  | [] => []
  | s :: st => s.asked :: st

/-- The active stage is shadowed if it is stackable and has a stage to offer. -/
def shadow : Stack κ ω → Stack κ ω
  | [] => []
  | s :: st =>
    if s.isStackable then
      match s.spawn.2 with
      | none => s.asked :: st
      | some fresh => fresh :: s.asked :: st
    else s :: st

/-- The active stage is taken away, unless it is the last one. -/
def drop (st : Stack κ ω) : Stack κ ω := if 1 < st.length then st.tail else st

/-- The active stage is taken away if it is stackable and not the last one. -/
def restore (st : Stack κ ω) : Stack κ ω :=
  if st.head?.any Stage.isStackable then drop st else st

/-- The stack rests on a stage: it is at the bottom. -/
def Rests (s : Stage κ ω) (st : Stack κ ω) : Prop :=
  ∃ above bottom, st = above ++ [bottom] ∧ s.Same bottom

/-- A change of a stack that leaves it on the stage on which it rests. -/
def Grounded (f : Stack κ ω → Stack κ ω) : Prop :=
  ∀ s st, Rests s st → Rests s (f st)

variable {s : Stage κ ω} {st : Stack κ ω}

theorem rests_singleton (s : Stage κ ω) : Rests s [s] := ⟨[], s, rfl, .refl⟩

theorem grounded_id : Grounded (κ := κ) (ω := ω) id := fun _ _ h => h

theorem Grounded.comp {f g : Stack κ ω → Stack κ ω} (hg : Grounded g) (hf : Grounded f) :
    Grounded (g ∘ f) := fun s st h => hg s _ (hf s st h)

theorem grounded_cons (top : Stage κ ω) : Grounded (top :: ·) := by
  rintro s st ⟨above, bottom, rfl, hsame⟩
  exact ⟨top :: above, bottom, rfl, hsame⟩

theorem grounded_ask : Grounded (κ := κ) (ω := ω) ask := by
  rintro s st ⟨above, bottom, rfl, hsame⟩
  cases above with
  | nil => exact ⟨[], bottom.asked, rfl, hsame.tail rfl⟩
  | cons top above => exact ⟨top.asked :: above, bottom, rfl, hsame⟩

/-- What is above the stage at the bottom may be taken away. -/
theorem grounded_drop : Grounded (κ := κ) (ω := ω) drop := by
  rintro s st ⟨above, bottom, rfl, hsame⟩
  cases above with
  | nil => exact ⟨[], bottom, rfl, hsame⟩
  | cons top above =>
    have hlong : 1 < (top :: above ++ [bottom]).length := by
      rw [List.length_append, List.length_cons, List.length_singleton]
      exact Nat.succ_lt_succ (Nat.succ_pos _)
    rw [drop, if_pos hlong]
    exact ⟨above, bottom, rfl, hsame⟩

theorem grounded_restore : Grounded (κ := κ) (ω := ω) restore := by
  intro s st h
  rw [restore]
  split
  · exact grounded_drop s st h
  · exact h

theorem grounded_shadow : Grounded (κ := κ) (ω := ω) shadow := by
  intro s st h
  have hasked := grounded_ask s st h
  cases st with
  | nil => exact h
  | cons top st =>
    rw [shadow]
    split
    · cases top.spawn.2 with
      | none => exact hasked
      | some fresh => exact grounded_cons fresh s _ hasked
    · exact h

/-- A stack that was asked holds the same stages. -/
theorem same_ask (st : Stack κ ω) : List.Forall₂ Stage.Same st (ask st) := by
  cases st with
  | nil => exact .nil
  | cons s st => exact .cons (.single rfl) (List.forall₂_same.mpr fun _ _ => .refl)

end Stack

/-! ## Operations of a registry -/

namespace Registry

def add (r : Registry κ ω) (s : Stage κ ω) : Except ChainError (Registry κ ω) :=
  if r.order.contains s.kind then .error (.duplicateStage s.kind)
  else .ok { order := r.order ++ [s.kind], stack? := Function.update r.stack? s.kind (some [s]) }

def push (r : Registry κ ω) (k : StageKind) (s : Stage κ ω) : Except ChainError (Registry κ ω) :=
  if s.kind ≠ k then .error (.kindMismatch k s.kind)
  else
    match r.stack? k with
    | none => .error (.unknownStage k)
    | some _ => .ok (r.adjust k (s :: ·))

def shadow (r : Registry κ ω) (k : StageKind) : Except ChainError Unit × Registry κ ω :=
  match r.active? k with
  | none => (.error (.unknownStage k), r)
  | some s =>
    if s.isStackable then
      match s.spawn.2 with
      | none => (.error (.notStackable k), r.adjust k Stack.ask)
      | some fresh =>
        match (r.adjust k Stack.ask).push k fresh with
        | .error e => (.error e, r.adjust k Stack.ask)
        | .ok pushed => (.ok (), pushed)
    else (.error (.notStackable k), r)

/-- Kind after kind in order. -/
def shadowAll (r : Registry κ ω) : Registry κ ω :=
  r.order.foldl (fun r k => r.adjust k Stack.shadow) r

/-- Kind after kind, the last one first. -/
def restoreAll (r : Registry κ ω) : Registry κ ω :=
  r.order.reverse.foldl (fun r k => r.adjust k Stack.restore) r

def operate (r : Registry κ ω) : Operation κ ω → Answer κ ω × Registry κ ω
  | .add s => Answer.ofChange r (r.add s)
  | .push k s => Answer.ofChange r (r.push k s)
  | .shadow k => Answer.ofAttempt (r.shadow k)
  | .pop k => Answer.ofPop r (r.pop k)
  | .shadowAll => (.done, r.shadowAll)
  | .restoreAll => (.done, r.restoreAll)

def operateAll (r : Registry κ ω) : List (Operation κ ω) → List (Answer κ ω) × Registry κ ω
  | [] => ([], r)
  | op :: ops =>
    let rest := (r.operate op).2.operateAll ops
    ((r.operate op).1 :: rest.1, rest.2)

/-! ### What holds of a registry -/

/-- No kind is twice in the order; the kinds in the order have a stack, and no others; and there is
a stack for each kind under which a stage was added, which rests on that stage. -/
structure Sound (r : Registry κ ω) (ops : List (Operation κ ω)) : Prop where
  distinct : r.order.Nodup
  ordered : ∀ k, (r.stack? k).isSome ↔ k ∈ r.order
  grounded : ∀ k, Option.Rel Stack.Rests (Operation.added? ops k) (r.stack? k)

/-- The order is the same, and each stack stays on the stage on which it rests. -/
structure Restacks (r r' : Registry κ ω) : Prop where
  order : r'.order = r.order
  stack : ∀ k, ∃ f, Stack.Grounded f ∧ r'.stack? k = (r.stack? k).map f

/-- The order is the same, and each stack holds the same stages. -/
structure Unchanged (r r' : Registry κ ω) : Prop where
  order : r'.order = r.order
  stack : ∀ k, Option.Rel (List.Forall₂ Stage.Same) (r.stack? k) (r'.stack? k)

variable {r r' : Registry κ ω} {k : StageKind} {f : Stack κ ω → Stack κ ω}

theorem Restacks.refl (r : Registry κ ω) : r.Restacks r :=
  ⟨rfl, fun _ => ⟨id, Stack.grounded_id, (Option.map_id_apply ..).symm⟩⟩

theorem Restacks.trans {q : Registry κ ω} (h : r.Restacks r') (h' : r'.Restacks q) :
    r.Restacks q := by
  refine ⟨h'.order.trans h.order, fun k => ?_⟩
  obtain ⟨f, hf, hr⟩ := h.stack k
  obtain ⟨g, hg, hq⟩ := h'.stack k
  exact ⟨g ∘ f, hg.comp hf, by rw [hq, hr, Option.map_map]⟩

theorem restacks_adjust (r : Registry κ ω) (k : StageKind) (hf : Stack.Grounded f) :
    r.Restacks (r.adjust k f) := by
  refine ⟨rfl, fun j => ⟨_, ?_, stack?_adjust r k j f⟩⟩
  split
  · exact hf
  · exact Stack.grounded_id

theorem Unchanged.refl (r : Registry κ ω) : r.Unchanged r := by
  refine ⟨rfl, fun k => ?_⟩
  cases r.stack? k with
  | none => exact .none
  | some st => exact .some (List.forall₂_same.mpr fun _ _ => .refl)

theorem unchanged_ask (r : Registry κ ω) (k : StageKind) : r.Unchanged (r.adjust k Stack.ask) := by
  refine ⟨rfl, fun j => ?_⟩
  rw [stack?_adjust]
  by_cases hj : j = k
  · rw [if_pos hj]
    cases r.stack? j with
    | none => exact .none
    | some st => exact .some (Stack.same_ask st)
  · rw [if_neg hj, Option.map_id]
    exact (Unchanged.refl r).stack j

/-! ### What each operation does -/

theorem restacks_push (r : Registry κ ω) (k : StageKind) (s : Stage κ ω) :
    r.Restacks (r.operate (.push k s)).2 := by
  rw [operate, push]
  split
  · exact .refl r
  · cases r.stack? k with
    | none => exact .refl r
    | some st => exact restacks_adjust r k (Stack.grounded_cons s)

theorem restacks_pop (r : Registry κ ω) (k : StageKind) : r.Restacks (r.operate (.pop k)).2 := by
  rw [operate, pop]
  rcases hst : r.stack? k with _ | _ | ⟨s, _ | ⟨s', st⟩⟩
  · exact .refl r
  · exact .refl r
  · exact .refl r
  · have hdrop : r.adjust k List.tail = r.adjust k Stack.drop := adjust_congr (by rw [hst]; rfl)
    show r.Restacks (r.adjust k List.tail)
    rw [hdrop]
    exact restacks_adjust r k Stack.grounded_drop

/-- A kind is unknown, its active stage is not to be shadowed, or it is asked and something comes of
that or not. -/
theorem shadow_cases (r : Registry κ ω) (k : StageKind) :
    (∃ e, r.shadow k = (.error e, r)) ∨
      (∃ e, r.shadow k = (.error e, r.adjust k Stack.ask)) ∨
      ∃ s fresh, r.active? k = some s ∧ s.spawn.2 = some fresh ∧
        r.shadow k = (.ok (), (r.adjust k Stack.ask).adjust k (fresh :: ·)) := by
  rw [shadow]
  cases hactive : r.active? k with
  | none => exact .inl ⟨_, rfl⟩
  | some s =>
    by_cases hs : s.isStackable = true
    · simp only [if_pos hs]
      cases hspawn : s.spawn.2 with
      | none => exact .inr (.inl ⟨_, rfl⟩)
      | some fresh =>
        simp only [push]
        by_cases hkind : fresh.kind ≠ k
        · rw [if_pos hkind]
          exact .inr (.inl ⟨_, rfl⟩)
        · rw [if_neg hkind]
          cases (r.adjust k Stack.ask).stack? k with
          | none => exact .inr (.inl ⟨_, rfl⟩)
          | some st => exact .inr (.inr ⟨s, fresh, rfl, hspawn, rfl⟩)
    · simp only [if_neg hs]
      exact .inl ⟨_, rfl⟩

theorem restacks_shadow (r : Registry κ ω) (k : StageKind) :
    r.Restacks (r.operate (.shadow k)).2 := by
  rw [operate]
  rcases r.shadow_cases k with ⟨e, h⟩ | ⟨e, h⟩ | ⟨s, fresh, -, -, h⟩
  · rw [h]
    exact .refl r
  · rw [h]
    exact restacks_adjust r k Stack.grounded_ask
  · rw [h]
    exact (restacks_adjust r k Stack.grounded_ask).trans
      (restacks_adjust _ k (Stack.grounded_cons fresh))

theorem restacks_foldl (hf : Stack.Grounded f) (ks : List StageKind) (r : Registry κ ω) :
    r.Restacks (ks.foldl (fun r k => r.adjust k f) r) := by
  induction ks generalizing r with
  | nil => exact .refl r
  | cons k ks ih => exact (restacks_adjust r k hf).trans (ih _)

/-- An operation that fails leaves all as it was, or has asked the active stage of a kind for another
one, of which nothing came. -/
theorem eq_of_failed {op : Operation κ ω} (h : (r.operate op).1.failed = true) :
    (r.operate op).2 = r ∨ ∃ k, op = .shadow k ∧ (r.operate op).2 = r.adjust k Stack.ask := by
  cases op with
  | add s => exact .inl (Answer.ofChange_of_failed h)
  | push k s => exact .inl (Answer.ofChange_of_failed h)
  | shadow k =>
    rw [operate] at h ⊢
    rcases r.shadow_cases k with ⟨e, heq⟩ | ⟨e, heq⟩ | ⟨s, fresh, -, -, heq⟩
    · rw [heq]
      exact .inl rfl
    · rw [heq]
      exact .inr ⟨k, rfl, rfl⟩
    · rw [heq] at h
      cases h
  | pop k =>
    rw [operate, pop] at h ⊢
    rcases hst : r.stack? k with _ | _ | ⟨s, _ | ⟨s', st⟩⟩
    · exact .inl rfl
    · exact .inl rfl
    · exact .inl rfl
    · rw [hst] at h
      cases h
  | shadowAll => cases h
  | restoreAll => cases h

/-- An operation that fails leaves the order and the stages in all stacks. -/
theorem unchanged_of_failed {op : Operation κ ω} (h : (r.operate op).1.failed = true) :
    r.Unchanged (r.operate op).2 := by
  rcases eq_of_failed h with heq | ⟨k, -, heq⟩
  · rw [heq]
    exact .refl r
  · rw [heq]
    exact unchanged_ask r k

/-! ### What all operations keep -/

variable {ops : List (Operation κ ω)} {op : Operation κ ω}

theorem rel_map_right {α β : Type} {R : α → β → Prop} {f : β → β}
    (hf : ∀ a b, R a b → R a (f b)) {x : Option α} {y : Option β} (h : Option.Rel R x y) :
    Option.Rel R x (y.map f) := by
  cases h with
  | none => exact .none
  | some h => exact .some (hf _ _ h)

theorem added?_append (ops : List (Operation κ ω)) (op : Operation κ ω) (k : StageKind) :
    Operation.added? (ops ++ [op]) k = (Operation.added? ops k).or (op.stage? k) := by
  rw [Operation.added?, List.findSome?_append, List.findSome?_singleton]
  rfl

theorem sound_empty : Sound (κ := κ) (ω := ω) {} [] :=
  ⟨List.nodup_nil, fun _ => ⟨nofun, nofun⟩, fun _ => .none⟩

/-- What holds of a registry is kept if its stacks stay on the stages on which they rest. -/
theorem Sound.restack (h : r.Sound ops) (hr : r.Restacks r')
    (hadded : ∀ k, Operation.added? (ops ++ [op]) k = Operation.added? ops k) :
    r'.Sound (ops ++ [op]) := by
  refine ⟨hr.order ▸ h.distinct, fun k => ?_, fun k => ?_⟩
  · obtain ⟨f, -, hf⟩ := hr.stack k
    rw [hf, Option.isSome_map, hr.order]
    exact h.ordered k
  · obtain ⟨f, hground, hf⟩ := hr.stack k
    rw [hf, hadded]
    exact rel_map_right hground (h.grounded k)

theorem Sound.ne_nil (h : r.Sound ops) {st : Stack κ ω} (hst : r.stack? k = some st) :
    st ≠ [] := by
  have hrel := h.grounded k
  rw [hst] at hrel
  generalize Operation.added? ops k = base at hrel
  cases hrel with
  | some hrests =>
    obtain ⟨above, bottom, rfl, -⟩ := hrests
    exact List.append_ne_nil_of_right_ne_nil _ (List.cons_ne_nil _ _)

theorem Sound.add (h : r.Sound ops) (s : Stage κ ω) :
    (r.operate (.add s)).2.Sound (ops ++ [.add s]) := by
  rw [operate, Registry.add]
  by_cases hmem : s.kind ∈ r.order
  · rw [if_pos (List.contains_iff_mem.mpr hmem)]
    refine h.restack (.refl r) fun k => ?_
    rw [added?_append]
    cases hk : Operation.added? ops k with
    | some base => rfl
    | none =>
      have hnone : k ∉ r.order := by
        rw [← h.ordered k]
        have hrel := h.grounded k
        rw [hk] at hrel
        cases hst : r.stack? k with
        | none => exact Bool.false_ne_true
        | some st => rw [hst] at hrel; cases hrel
      have hne : s.kind ≠ k := fun heq => hnone (heq ▸ hmem)
      rw [Option.none_or, Operation.stage?, if_neg hne]
  · rw [if_neg fun hc => hmem (List.contains_iff_mem.mp hc)]
    have hnone : r.stack? s.kind = none := by
      rw [← Option.not_isSome_iff_eq_none, h.ordered]
      exact hmem
    refine ⟨List.nodup_append'.mpr ⟨h.distinct, List.nodup_singleton _,
      List.disjoint_singleton.mpr hmem⟩, fun k => ?_, fun k => ?_⟩
    · show (Function.update r.stack? s.kind (some [s]) k).isSome ↔ k ∈ r.order ++ [s.kind]
      rw [List.mem_append, List.mem_singleton]
      by_cases hk : k = s.kind
      · subst hk
        rw [Function.update_self]
        exact ⟨fun _ => .inr rfl, fun _ => rfl⟩
      · rw [Function.update_of_ne hk, h.ordered k, or_iff_left hk]
    · show Option.Rel Stack.Rests _ (Function.update r.stack? s.kind (some [s]) k)
      rw [added?_append]
      by_cases hk : k = s.kind
      · subst hk
        have hrel := h.grounded s.kind
        rw [hnone] at hrel
        cases hadded : Operation.added? ops s.kind with
        | some base => rw [hadded] at hrel; cases hrel
        | none =>
          rw [Function.update_self, Option.none_or, Operation.stage?, if_pos rfl]
          exact .some (Stack.rests_singleton s)
      · rw [Function.update_of_ne hk, Operation.stage?, if_neg (Ne.symm hk), Option.or_none]
        exact h.grounded k

/-- An operation keeps what holds of a registry. -/
theorem Sound.operate (h : r.Sound ops) (op : Operation κ ω) :
    (r.operate op).2.Sound (ops ++ [op]) := by
  have hsame : (∀ k, op.stage? k = none) →
      ∀ k, Operation.added? (ops ++ [op]) k = Operation.added? ops k := by
    intro hop k
    rw [added?_append, hop, Option.or_none]
  cases op with
  | add s => exact h.add s
  | push k s => exact h.restack (restacks_push r k s) (hsame fun _ => rfl)
  | shadow k => exact h.restack (restacks_shadow r k) (hsame fun _ => rfl)
  | pop k => exact h.restack (restacks_pop r k) (hsame fun _ => rfl)
  | shadowAll =>
    exact h.restack (restacks_foldl Stack.grounded_shadow r.order r) (hsame fun _ => rfl)
  | restoreAll =>
    exact h.restack (restacks_foldl Stack.grounded_restore r.order.reverse r) (hsame fun _ => rfl)

/-! ### Pushed and popped -/

theorem Sound.operate_push_pop (h : r.Sound ops) {s : Stage κ ω}
    (hdone : (r.operate (.push k s)).1 = .done) :
    (r.operate (.push k s)).2.operate (.pop k) = (.popped s, r) := by
  rw [Registry.operate, push] at hdone ⊢
  by_cases hkind : s.kind ≠ k
  · rw [if_pos hkind] at hdone
    cases hdone
  · rw [if_neg hkind] at hdone ⊢
    cases hst : r.stack? k with
    | none => rw [hst] at hdone; cases hdone
    | some st =>
      show Answer.ofPop _ ((r.adjust k (s :: ·)).pop k) = _
      rw [pop_adjust_cons hst (h.ne_nil hst)]
      rfl

theorem Sound.operate_shadow_pop (h : r.Sound ops) (hdone : (r.operate (.shadow k)).1 = .done) :
    ∃ s fresh, r.active? k = some s ∧ s.spawn.2 = some fresh ∧
      (r.operate (.shadow k)).2.active? k = some fresh ∧
      (r.operate (.shadow k)).2.operate (.pop k) = (.popped fresh, r.adjust k Stack.ask) := by
  rw [Registry.operate] at hdone ⊢
  rcases r.shadow_cases k with ⟨e, heq⟩ | ⟨e, heq⟩ | ⟨s, fresh, hactive, hspawn, heq⟩
  · rw [heq] at hdone
    cases hdone
  · rw [heq] at hdone
    cases hdone
  · obtain ⟨st, hst, -⟩ := Option.bind_eq_some_iff.mp hactive
    have hasked : (r.adjust k Stack.ask).stack? k = some (Stack.ask st) := by
      rw [stack?_adjust, hst, if_pos rfl, Option.map_some]
    have hne : Stack.ask st ≠ [] := by
      cases st with
      | nil => exact absurd rfl (h.ne_nil hst)
      | cons s st => exact List.cons_ne_nil _ _
    refine ⟨s, fresh, hactive, hspawn, ?_, ?_⟩
    · rw [heq]
      show ((r.adjust k Stack.ask).adjust k (fresh :: ·)).active? k = some fresh
      rw [active?, stack?_adjust, hasked, if_pos rfl]
      rfl
    · rw [heq]
      show Answer.ofPop _ (((r.adjust k Stack.ask).adjust k (fresh :: ·)).pop k) = _
      rw [pop_adjust_cons hasked hne]
      rfl

end Registry

end DocTree
