import DocTree.Proofs.Json.Unbounded
import Mathlib.Data.List.Perm.Basic

/-!
# The order of members

An object says the same about a name in whatever order its members stand, as long as no two of them
have one name (`field_perm`). Two values are reorderings of each other if one comes from the other
by putting the members of objects in another order, at any level (`Reordered`); a decoder is
orderless if it gives the same for both.

That a decoder is orderless is shown by one step at a time (`Orderless.of_steps`): the members of
the outermost object change places, or a single item or member gives way to a reordering of itself.
A decoder that asks an object for fields only sees the second kind of step as one field with another
value (`Orderless.of_fields`).

Main result: `read?_of_reordered`.
-/

namespace DocTree.Json

/-! ## Values without repeated names -/

mutual
/-- No object in a value has two members of one name. -/
def NamesDistinct : Json → Prop
  | array xs => NamesDistinctItems xs
  | object ms => (ms.map (·.1)).Nodup ∧ NamesDistinctMembers ms
  | _ => True
def NamesDistinctItems : List Json → Prop
  | [] => True
  | x :: xs => x.NamesDistinct ∧ NamesDistinctItems xs
def NamesDistinctMembers : List (String × Json) → Prop
  | [] => True
  | (_, v) :: ms => v.NamesDistinct ∧ NamesDistinctMembers ms
end

theorem namesDistinct_array {xs : List Json} :
    (array xs).NamesDistinct ↔ ∀ x ∈ xs, x.NamesDistinct := by
  rw [NamesDistinct]
  induction xs with
  | nil => simp [NamesDistinctItems]
  | cons x xs ih => rw [NamesDistinctItems, ih, List.forall_mem_cons]

theorem namesDistinct_object {ms : List (String × Json)} :
    (object ms).NamesDistinct ↔ (ms.map (·.1)).Nodup ∧ ∀ m ∈ ms, m.2.NamesDistinct := by
  have h : NamesDistinctMembers ms ↔ ∀ m ∈ ms, m.2.NamesDistinct := by
    induction ms with
    | nil => simp [NamesDistinctMembers]
    | cons m ms ih => rw [NamesDistinctMembers, ih, List.forall_mem_cons]
  rw [NamesDistinct, h]

/-! ## Reorderings -/

/-- Members of objects in another order, at any level. -/
inductive Reordered : Json → Json → Prop
  | refl (j : Json) : Reordered j j
  | members {ms ns : List (String × Json)} (h : ms.Perm ns) : Reordered (object ms) (object ns)
  | item (xs ys : List Json) {x y : Json} (h : Reordered x y) :
    Reordered (array (xs ++ x :: ys)) (array (xs ++ y :: ys))
  | value (ms ns : List (String × Json)) (name : String) {v w : Json} (h : Reordered v w) :
    Reordered (object (ms ++ (name, v) :: ns)) (object (ms ++ (name, w) :: ns))
  | trans {i j k : Json} (h : Reordered i j) (h' : Reordered j k) : Reordered i k

theorem NamesDistinct.of_reordered {j k : Json} (hd : j.NamesDistinct) (h : Reordered j k) :
    k.NamesDistinct := by
  induction h with
  | refl j => exact hd
  | members hp =>
    rw [namesDistinct_object] at hd ⊢
    exact ⟨(hp.map _).nodup_iff.mp hd.1, fun m hm => hd.2 m (hp.mem_iff.mpr hm)⟩
  | item xs ys h ih =>
    rw [namesDistinct_array, List.forall_mem_append, List.forall_mem_cons] at hd ⊢
    exact ⟨hd.1, ih hd.2.1, hd.2.2⟩
  | value ms ns name h ih =>
    rw [namesDistinct_object, List.forall_mem_append, List.forall_mem_cons, List.map_append,
      List.map_cons] at hd ⊢
    exact ⟨hd.1, hd.2.1, ih hd.2.2.1, hd.2.2.2⟩
  | trans _ _ ih ih' => exact ih' (ih hd)

/-! ## Fields -/

theorem field_eq_missing {name : String} {ms : List (String × Json)}
    (h : ∀ m ∈ ms, m.1 ≠ name) : field name ms = .missing := by
  induction ms with
  | nil => rfl
  | cons m ms ih =>
    rw [field, if_neg (h m List.mem_cons_self)]
    exact ih fun n hn => h n (List.mem_cons_of_mem _ hn)

theorem field_append_left {name : String} {ms ns : List (String × Json)}
    (h : ∀ m ∈ ns, m.1 ≠ name) : field name (ms ++ ns) = field name ms := by
  induction ms with
  | nil => exact field_eq_missing h
  | cons m ms ih => rw [List.cons_append, field, field, ih]

theorem field_append_right {name : String} {ms ns : List (String × Json)}
    (h : ∀ m ∈ ms, m.1 ≠ name) : field name (ms ++ ns) = field name ns := by
  induction ms with
  | nil => rfl
  | cons m ms ih =>
    rw [List.cons_append, field, if_neg (h m List.mem_cons_self)]
    exact ih fun n hn => h n (List.mem_cons_of_mem _ hn)

theorem field_perm {ms ns : List (String × Json)} (hp : ms.Perm ns) (hd : (ms.map (·.1)).Nodup)
    (name : String) : field name ms = field name ns := by
  induction hp with
  | nil => rfl
  | cons m hp ih => rw [field, field, ih (List.nodup_cons.mp hd).2]
  | swap m n ms =>
    have hne : n.1 ≠ m.1 := fun h => (List.nodup_cons.mp hd).1 (by simp [h])
    simp only [field]
    by_cases hn : n.1 = name
    · have hm : m.1 ≠ name := fun h => hne (hn.trans h.symm)
      simp only [hn, hm, if_true, if_false]
    · simp only [hn, if_false]
  | trans hp _ ih ih' => exact (ih hd).trans (ih' ((hp.map _).nodup_iff.mp hd))

theorem field_cons_of_notMem {name : String} {v : Json} {ms : List (String × Json)}
    (h : name ∉ ms.map (·.1)) : field name ((name, v) :: ms) = .single v := by
  have hmissing : field name ms = .missing :=
    field_eq_missing fun m hm he => h (he ▸ List.mem_map_of_mem hm)
  rw [field, if_pos rfl, hmissing]

/-- The same is said about a name, but for one value in place of another. -/
inductive Field.SameBut (v w : Json) : Field → Field → Prop
  | same (f : Field) : SameBut v w f f
  | replaced : SameBut v w (.single v) (.single w)

namespace Field.SameBut

variable {α : Type} {decode : Json → Option α} {v w : Json} {f g : Field}

theorem required (h : SameBut v w f g) (hd : decode v = decode w) :
    f.required decode = g.required decode := by
  cases h with
  | same => rfl
  | replaced => exact hd

theorem optional (h : SameBut v w f g) (hd : decode v = decode w) (default : α) :
    f.optional default decode = g.optional default decode := by
  cases h with
  | same => rfl
  | replaced => exact hd

end Field.SameBut

/-- With one member of an object replaced, only its own field changes. -/
theorem sameBut_field {ms ns : List (String × Json)} {name : String} {v w : Json}
    (hd : ((ms ++ (name, v) :: ns).map (·.1)).Nodup) (key : String) :
    Field.SameBut v w (field key (ms ++ (name, v) :: ns)) (field key (ms ++ (name, w) :: ns)) := by
  have hfront (u : Json) :
      field key (ms ++ (name, u) :: ns) = field key ((name, u) :: (ms ++ ns)) :=
    field_perm List.perm_middle (by simpa using hd) key
  rw [hfront, hfront]
  by_cases hkey : name = key
  · subst hkey
    have hnew : name ∉ (ms ++ ns).map (·.1) :=
      (List.nodup_cons.mp ((List.perm_middle.map _).nodup_iff.mp hd)).1
    rw [field_cons_of_notMem hnew, field_cons_of_notMem hnew]
    exact .replaced
  · rw [field, field, if_neg hkey, if_neg hkey]
    exact .same _

/-! ## Orderless decoders -/

/-- Reorderings are decoded alike. -/
def Orderless {α : Type} (decode : Json → α) : Prop :=
  ∀ ⦃j k : Json⦄, j.NamesDistinct → Reordered j k → decode j = decode k

namespace Orderless

variable {α β : Type} {decode : Json → α}

/-- It is enough to look at one step, and there to know that what gives way is decoded alike. -/
theorem of_steps
    (members : ∀ ms ns : List (String × Json), (object ms).NamesDistinct → ms.Perm ns →
      decode (object ms) = decode (object ns))
    (item : ∀ (xs ys : List Json) (x y : Json), x.NamesDistinct → Reordered x y →
      decode x = decode y → decode (array (xs ++ x :: ys)) = decode (array (xs ++ y :: ys)))
    (value : ∀ (ms ns : List (String × Json)) (name : String) (v w : Json),
      (object (ms ++ (name, v) :: ns)).NamesDistinct → v.NamesDistinct → Reordered v w →
      decode v = decode w →
      decode (object (ms ++ (name, v) :: ns)) = decode (object (ms ++ (name, w) :: ns))) :
    Orderless decode := by
  intro j k hd h
  induction h with
  | refl j => rfl
  | members hp => exact members _ _ hd hp
  | item xs ys h ih =>
    have hx := namesDistinct_array.mp hd _ (List.mem_append_right xs List.mem_cons_self)
    exact item xs ys _ _ hx h (ih hx)
  | value ms ns name h ih =>
    have hv := (namesDistinct_object.mp hd).2 _ (List.mem_append_right ms List.mem_cons_self)
    exact value ms ns name _ _ hd hv h (ih hv)
  | trans h _ ih ih' => exact (ih hd).trans (ih' (hd.of_reordered h))

/-- Of an object, only its fields count. -/
theorem of_fields
    (item : ∀ (xs ys : List Json) (x y : Json), x.NamesDistinct → Reordered x y →
      decode x = decode y → decode (array (xs ++ x :: ys)) = decode (array (xs ++ y :: ys)))
    (fields : ∀ (ms ns : List (String × Json)) (v w : Json), v.NamesDistinct → Reordered v w →
      decode v = decode w → (∀ name, Field.SameBut v w (field name ms) (field name ns)) →
      decode (object ms) = decode (object ns)) :
    Orderless decode := by
  refine of_steps (fun ms ns hd hp => ?_) item fun ms ns name v w hd hv h ih => ?_
  · refine fields ms ns null null trivial (.refl _) rfl fun name => ?_
    rw [field_perm hp (namesDistinct_object.mp hd).1 name]
    exact .same _
  · exact fields _ _ v w hv h ih fun key => sameBut_field (namesDistinct_object.mp hd).1 key

/-- A decoder that takes all arrays alike, and all objects. -/
theorem of_plain (items : ∀ xs ys : List Json, decode (array xs) = decode (array ys))
    (members : ∀ ms ns : List (String × Json), decode (object ms) = decode (object ns)) :
    Orderless decode :=
  of_steps (fun _ _ _ _ => members _ _) (fun _ _ _ _ _ _ _ => items _ _)
    fun _ _ _ _ _ _ _ _ _ => members _ _

theorem comp (h : Orderless decode) (f : α → β) : Orderless fun j => f (decode j) :=
  fun _ _ hd hr => congrArg f (h hd hr)

end Orderless

/-! ## Bounds -/

theorem fitsItems_eq_all (room : Nat) (xs : List Json) :
    fitsItems room xs = xs.all (fits room) := by
  induction xs with
  | nil => exact fitsItems_nil room
  | cons x xs ih => rw [fitsItems_cons, ih, List.all_cons]

theorem fitsMembers_eq_all (room : Nat) (ms : List (String × Json)) :
    fitsMembers room ms = ms.all fun m => fits room m.2 := by
  induction ms with
  | nil => exact fitsMembers_nil room
  | cons m ms ih => rw [fitsMembers_cons, ih, List.all_cons]

theorem orderless_fits : Orderless fun j room => fits room j := by
  refine .of_steps (fun ms ns _ hp => funext fun room => ?_)
    (fun xs ys x y _ _ ih => funext fun room => ?_)
    fun ms ns name v w _ _ _ ih => funext fun room => ?_
  · cases room with
    | zero => rw [fits_zero_object, fits_zero_object]
    | succ room =>
      rw [fits_succ_object, fits_succ_object, fitsMembers_eq_all, fitsMembers_eq_all, hp.all_eq]
  · cases room with
    | zero => rw [fits_zero_array, fits_zero_array]
    | succ room =>
      have hitem : fits room x = fits room y := congrFun ih room
      simp [fitsItems_eq_all, hitem]
  · cases room with
    | zero => rw [fits_zero_object, fits_zero_object]
    | succ room =>
      have hvalue : fits room v = fits room w := congrFun ih room
      simp [fitsMembers_eq_all, hvalue]

/-- An orderless decoder takes two texts alike if their values are reorderings of each other. -/
theorem read?_of_reordered {α : Type} {decode : Json → Option α} (h : Orderless decode) {j k : Json}
    (hd : j.NamesDistinct) (hr : Reordered j k) {s t : String} (hs : ofText? s = some j)
    (ht : ofText? t = some k) : (read? t).bind decode = (read? s).bind decode := by
  have hfits : fits maxDepth j = fits maxDepth k := congrFun (orderless_fits hd hr) maxDepth
  rw [read?_eq_filter, read?_eq_filter, hs, ht]
  cases hk : fits maxDepth k with
  | true =>
    rw [Option.filter_some_pos hk, Option.filter_some_pos (hfits.trans hk)]
    exact (h hd hr).symm
  | false => rw [Option.filter_some_neg hk, Option.filter_some_neg (hfits.trans hk)]

end DocTree.Json
