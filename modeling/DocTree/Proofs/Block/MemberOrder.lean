import DocTree.Block.Written
import DocTree.Proofs.Json.Reordering
import DocTree.Proofs.Json.RoundTrip

/-!
# The order of members in a written tree

The type of a block tells which of its other members count, and may stand behind all of them. The
order in which they stand nevertheless does not matter: every part of a block is looked up by name,
and the values found there are read by orderless decoders. One member of a block that gives way to a
reordering of itself is therefore read alike wherever it is looked up
(`Kind.containerOfMembers?_sameBut`).

Three decoders do not look members up. A map puts the entries it finds in key order
(`KeyMap.insertAll_perm`), a keyword may be the name of the only member of an object, and the
children of a block are gathered on the way through its members; they are the field of their name
(`childrenOfMembers?_eq_field`).

Main result: `Block.read?_reordered`.
-/

namespace DocTree

open Json

/-! ## Plain decoders -/

theorem Json.orderless_bool? : Orderless bool? := .of_plain (fun _ _ => rfl) fun _ _ => rfl

theorem Json.orderless_string? : Orderless string? := .of_plain (fun _ _ => rfl) fun _ _ => rfl

theorem Json.orderless_nullableString? : Orderless nullableString? :=
  .of_plain (fun _ _ => rfl) fun _ _ => rfl

theorem Json.orderless_word? : Orderless word? := .of_plain (fun _ _ => rfl) fun _ _ => rfl

theorem Dialect.orderless_ofJson? : Orderless ofJson? := .of_plain (fun _ _ => rfl) fun _ _ => rfl

theorem orderless_symbolOfJson? : Orderless symbolOfJson? :=
  .of_plain (fun _ _ => rfl) fun _ _ => rfl

theorem Kind.orderless_tagOfJson? : Orderless tagOfJson? :=
  .of_plain (fun _ _ => rfl) fun _ _ => rfl

theorem HeaderLevel.orderless_ofJson? : Orderless ofJson? :=
  orderless_word?.comp fun w => w.bind fun w => (ofNat w.toNat).toOption

/-! ## Maps -/

namespace KeyMap

variable {β : Type u}

/-- A map is told by its lookups. -/
theorem eq_of_get? {m n : KeyMap β} (h : ∀ key, m.get? key = n.get? key) : m = n := by
  have hmem : ∀ e, e ∈ m.entries ↔ e ∈ n.entries := fun ⟨key, value⟩ => by
    rw [← get?_eq_some_iff, ← get?_eq_some_iff, h]
  have hne : ∀ {a b : String × β}, a.1 < b.1 → a ≠ b := fun hlt he =>
    String.lt_irrefl _ (he ▸ hlt)
  have hperm : m.entries.Perm n.entries :=
    (List.perm_ext_iff_of_nodup (m.sorted.imp hne) (n.sorted.imp hne)).mpr hmem
  exact ext_entries (hperm.eq_of_pairwise
    (fun a b _ _ hab hba => absurd hba (String.lt_asymm hab)) m.sorted n.sorted)

theorem insert_comm (m : KeyMap β) {k l : String} (h : k ≠ l) (a b : β) :
    (m.insert k a).insert l b = (m.insert l b).insert k a := by
  refine eq_of_get? fun key => ?_
  simp only [get?_insert]
  by_cases hk : key = k
  · have hl : key ≠ l := fun he => h (hk.symm.trans he)
    rw [if_neg hl, if_pos hk, if_pos hk]
  · rw [if_neg hk, if_neg hk]

/-- Entries with different keys may be inserted in any order. -/
theorem insertAll_perm {es fs : List (String × β)} (hp : es.Perm fs)
    (hd : (es.map (·.1)).Nodup) (m : KeyMap β) : m.insertAll es = m.insertAll fs := by
  induction hp generalizing m with
  | nil => rfl
  | cons e hp ih => exact ih (List.nodup_cons.mp hd).2 _
  | swap d e es =>
    have hne : e.1 ≠ d.1 := fun h => (List.nodup_cons.mp hd).1 (by simp [h])
    simp only [insertAll_cons, insert_comm m hne]
  | trans hp _ ih ih' => exact (ih hd m).trans (ih' ((hp.map _).nodup_iff.mp hd) m)

end KeyMap

namespace StringMap

/-- A member whose value is a text. -/
def textMember? (m : String × Json) : Option (String × String) := m.2.string?.map fun s => (m.1, s)

theorem entriesOfMembers?_eq (ms : List (String × Json)) :
    entriesOfMembers? ms =
      if ms.all fun m => (textMember? m).isSome then some (ms.filterMap textMember?) else none := by
  induction ms with
  | nil => rfl
  | cons m ms ih =>
    obtain ⟨k, v⟩ := m
    cases v with
    | string s =>
      have hmember : textMember? (k, .string s) = some (k, s) := rfl
      simp only [entriesOfMembers?, ih, List.all_cons, List.filterMap_cons, hmember,
        Option.isSome_some, Bool.true_and]
      split <;> rfl
    | _ => rfl

theorem nodup_filterMap_textMember? {ms : List (String × Json)} (hd : (ms.map (·.1)).Nodup) :
    ((ms.filterMap textMember?).map (·.1)).Nodup := by
  have hname : ∀ m e, textMember? m = some e → e.1 = m.1 := fun m e h => by
    obtain ⟨s, -, rfl⟩ := Option.map_eq_some_iff.mp h
    rfl
  rw [List.Nodup, List.pairwise_map] at hd ⊢
  refine hd.filterMap _ fun m n hne e he f hf => ?_
  rwa [hname m e he, hname n f hf]

theorem orderless_ofJson? : Orderless ofJson? := by
  refine .of_steps (fun ms ns hd hp => ?_) (fun _ _ _ _ _ _ _ => rfl)
    fun ms ns name v w _ hv hr _ => ?_
  · have hkeys := nodup_filterMap_textMember? (namesDistinct_object.mp hd).1
    simp only [ofJson?, entriesOfMembers?_eq, hp.all_eq]
    split
    · exact congrArg some (KeyMap.insertAll_perm (hp.filterMap textMember?) hkeys ∅)
    · rfl
  · have hmember : textMember? (name, v) = textMember? (name, w) := by
      simp only [textMember?, orderless_string? hv hr]
    simp only [ofJson?, entriesOfMembers?_eq, List.all_append, List.all_cons,
      List.filterMap_append, List.filterMap_cons, hmember]

end StringMap

/-! ## Keywords -/

theorem isNullOrEmpty_object (ms : List (String × Json)) :
    isNullOrEmpty (.object ms) = ms.isEmpty := by
  cases ms <;> rfl

theorem orderless_isNullOrEmpty : Orderless isNullOrEmpty := by
  refine .of_steps (fun ms ns _ hp => ?_) (fun _ _ _ _ _ _ _ => rfl)
    fun ms ns name v w _ _ _ _ => ?_
  · rw [isNullOrEmpty_object, isNullOrEmpty_object, hp.isEmpty_eq]
  · rw [isNullOrEmpty_object, isNullOrEmpty_object]
    cases ms <;> rfl

section
variable {isNothing : Json → Bool}

theorem keyword?_of_two_le {ms : List (String × Json)} (h : 2 ≤ ms.length) :
    keyword? isNothing (.object ms) = none := by
  match ms with
  | _ :: _ :: _ => rfl

theorem orderless_keyword? (h : Orderless isNothing) : Orderless (keyword? isNothing) := by
  refine .of_steps (fun ms ns _ hp => ?_) (fun _ _ _ _ _ _ _ => rfl)
    fun ms ns name v w _ hv hr _ => ?_
  · match ms with
    | [] => rw [hp.nil_eq]
    | [m] => rw [List.singleton_perm.mp hp]
    | _ :: _ :: _ =>
      rw [keyword?_of_two_le (by simp), keyword?_of_two_le (by simp [← hp.length_eq])]
  · by_cases hone : ms = [] ∧ ns = []
    · obtain ⟨rfl, rfl⟩ := hone
      simp only [List.nil_append, keyword?, h hv hr]
    · have hlen (u : Json) : 2 ≤ (ms ++ (name, u) :: ns).length := by
        by_contra hlt
        rw [List.length_append, List.length_cons] at hlt
        exact hone ⟨List.length_eq_zero_iff.mp (by omega), List.length_eq_zero_iff.mp (by omega)⟩
      rw [keyword?_of_two_le (hlen v), keyword?_of_two_le (hlen w)]

theorem TextStyle.orderless_ofJson? (h : Orderless isNothing) : Orderless (ofJson? isNothing) :=
  (orderless_keyword? h).comp fun s => s.bind ofKeyword?

theorem ListStyle.orderless_ofJson? (h : Orderless isNothing) : Orderless (ofJson? isNothing) :=
  (orderless_keyword? h).comp fun s => s.bind ofKeyword?

end

/-! ## References -/

namespace Reference

theorem orderless_kindOfJson? : Orderless kindOfJson? :=
  orderless_string?.comp fun s => s.map ResourceKind.ofScheme

theorem orderless_basesOfJson? : Orderless basesOfJson? := by
  refine .of_steps (fun _ _ _ _ => rfl) (fun xs ys x y hx hr _ => ?_)
    fun _ _ _ _ _ _ _ _ _ => rfl
  have hstring := orderless_string? hx hr
  simp [basesOfJson?, array?, hstring]

section
variable {v w : Json} (hv : v.NamesDistinct) (hr : Reordered v w)
include hv hr

theorem ofFields?_sameBut {f₁ f₂ f₃ f₄ f₅ g₁ g₂ g₃ g₄ g₅ : Field} (h₁ : f₁.SameBut v w g₁)
    (h₂ : f₂.SameBut v w g₂) (h₃ : f₃.SameBut v w g₃) (h₄ : f₄.SameBut v w g₄)
    (h₅ : f₅.SameBut v w g₅) : ofFields? f₁ f₂ f₃ f₄ f₅ = ofFields? g₁ g₂ g₃ g₄ g₅ := by
  rw [ofFields?, ofFields?, h₁.required (orderless_kindOfJson? hv hr),
    h₂.optional (orderless_bool? hv hr), h₃.required (orderless_string? hv hr),
    h₄.optional (orderless_basesOfJson? hv hr), h₅.optional (StringMap.orderless_ofJson? hv hr)]

end

theorem part_sameBut (xs ys : List Json) (v w : Json) (index : Nat) :
    (part (xs ++ v :: ys) index).SameBut v w (part (xs ++ w :: ys) index) := by
  induction xs generalizing index with
  | nil =>
    cases index with
    | zero => exact .replaced
    | succ index => exact .same _
  | cons x xs ih =>
    cases index with
    | zero => exact .same _
    | succ index => exact ih index

theorem orderless_ofJson? : Orderless ofJson? := by
  refine .of_fields (fun xs ys x y hx hr _ => ?_) fun ms ns v w hv hr _ h => ?_
  · have hpart := part_sameBut xs ys x y
    have hlen : (xs ++ x :: ys).length = (xs ++ y :: ys).length := by simp
    rw [ofJson?, ofJson?, hlen,
      ofFields?_sameBut hx hr (hpart 0) (hpart 1) (hpart 2) (hpart 3) (hpart 4)]
  · exact ofFields?_sameBut hv hr (h _) (h _) (h _) (h _) (h _)

end Reference

/-! ## Kinds -/

namespace Kind

/-- The names of members that do not hold data of a kind. -/
def reserved : List String := ["type", "children", "parameters"]

section
variable {v w : Json} (hv : v.NamesDistinct) (hr : Reordered v w) {ms ns : List (String × Json)}
  (h : ∀ name, name ∉ reserved → (field name ms).SameBut v w (field name ns))
include hv hr h

theorem targetOfMembers?_sameBut : targetOfMembers? ms = targetOfMembers? ns := by
  have hreference := (h "reference" (by decide)).required (Reference.orderless_ofJson? hv hr)
  have hfree := (h "free_standing" (by decide)).optional (orderless_bool? hv hr) false
  rw [targetOfMembers?, targetOfMembers?, hreference, hfree]

theorem callOfMembers?_sameBut {name : String} (hname : name ∉ reserved) :
    callOfMembers? name ms = callOfMembers? name ns := by
  have hcontent := (h "content" (by decide)).optional (orderless_nullableString? hv hr) none
  have hinline := (h "inline" (by decide)).optional (orderless_bool? hv hr) false
  rw [callOfMembers?, callOfMembers?, (h name hname).required (orderless_string? hv hr), hcontent,
    hinline]

/-- Reading the data of a container looks at data members only, and not at their order. -/
theorem containerOfMembers?_sameBut (t : ContainerTag) :
    containerOfMembers? ms t = containerOfMembers? ns t := by
  cases t with
  | link => simp only [containerOfMembers?, targetOfMembers?_sameBut hv hr h]
  | macroMarker =>
    have hcall := callOfMembers?_sameBut hv hr h (by decide : "name" ∉ reserved)
    simp only [containerOfMembers?, hcall]
  | document | metadata =>
    have hmetadata := (h "meta_data" (by decide)).optional (StringMap.orderless_ofJson? hv hr) ∅
    simp only [containerOfMembers?, hmetadata]
  | header =>
    have hlevel := (h "level" (by decide)).required (HeaderLevel.orderless_ofJson? hv hr)
    have hid := (h "id" (by decide)).optional (orderless_nullableString? hv hr) none
    simp only [containerOfMembers?, hlevel, hid]
  | list =>
    have hstyle := ListStyle.orderless_ofJson? orderless_isNullOrEmpty hv hr
    simp only [containerOfMembers?, (h "list_type" (by decide)).required hstyle]
  | format =>
    have hstyle := TextStyle.orderless_ofJson? orderless_isNullOrEmpty hv hr
    simp only [containerOfMembers?, (h "format" (by decide)).required hstyle]
  | _ => rfl

theorem leafOfMembers?_sameBut (t : LeafTag) : leafOfMembers? ms t = leafOfMembers? ns t := by
  have htext {name : String} (hname : name ∉ reserved) :=
    (h name hname).required (orderless_string? hv hr)
  cases t with
  | image => simp only [leafOfMembers?, targetOfMembers?_sameBut hv hr h]
  | macroCall =>
    have hcall := callOfMembers?_sameBut hv hr h (by decide : "id" ∉ reserved)
    simp only [leafOfMembers?, hcall]
  | word => simp only [leafOfMembers?, htext (by decide : "text" ∉ reserved)]
  | specialSymbol =>
    have hsymbol := (h "symbol" (by decide)).required (orderless_symbolOfJson? hv hr)
    simp only [leafOfMembers?, hsymbol]
  | rawText =>
    have hdialect := (h "syntax" (by decide)).required (Dialect.orderless_ofJson? hv hr)
    simp only [leafOfMembers?, htext (by decide : "content" ∉ reserved), hdialect]
  | verbatim =>
    have hinline := (h "inline" (by decide)).optional (orderless_bool? hv hr) false
    simp only [leafOfMembers?, htext (by decide : "content" ∉ reserved), hinline]
  | id => simp only [leafOfMembers?, htext (by decide : "name" ∉ reserved)]
  | emptyLines =>
    have hcount := (h "count" (by decide)).required (orderless_word? hv hr)
    simp only [leafOfMembers?, hcount]
  | _ => rfl

end

theorem ofMembers?_sameBut {v w : Json} (hv : v.NamesDistinct) (hr : Reordered v w)
    {ms ns : List (String × Json)} (h : ∀ name, (field name ms).SameBut v w (field name ns)) :
    ofMembers? ms = ofMembers? ns := by
  simp only [ofMembers?, (h "type").required (orderless_tagOfJson? hv hr),
    containerOfMembers?_sameBut hv hr (fun name _ => h name),
    leafOfMembers?_sameBut hv hr (fun name _ => h name)]

end Kind

/-! ## Blocks -/

namespace Block

theorem listOfJson?_eq_mapM (js : List Json) : listOfJson? js = js.mapM ofJson? := by
  induction js with
  | nil => rfl
  | cons j js ih =>
    rw [List.mapM_cons, listOfJson?, ih]
    cases ofJson? j <;> cases js.mapM ofJson? <;> rfl

/-- The children are the one field of their name. -/
theorem childrenOfMembers?_eq_field (ms : List (String × Json)) :
    childrenOfMembers? ms =
      (field "children" ms).optional none fun v => (itemsOfJson? v).map some := by
  induction ms with
  | nil => rfl
  | cons m ms ih =>
    obtain ⟨name, v⟩ := m
    rw [childrenOfMembers?, field, ih]
    by_cases hname : name = "children"
    · simp only [if_pos hname]
      cases field "children" ms with
      | missing => cases h : itemsOfJson? v <;> simp [Field.optional, h]
      | single u => cases h : itemsOfJson? u <;> simp [Field.optional, h]
      | repeated => rfl
    · simp only [if_neg hname]
      cases (field "children" ms).optional none fun v => (itemsOfJson? v).map some <;> rfl

theorem orderless_itemsOfJson?_ofJson? : Orderless fun j => (itemsOfJson? j, ofJson? j) := by
  refine .of_fields (fun xs ys x y _ _ ih => ?_) fun ms ns v w hv hr ih h => ?_
  · have hitem : ofJson? x = ofJson? y := congrArg Prod.snd ih
    refine congrArg (·, none) ?_
    simp only [itemsOfJson?, listOfJson?_eq_mapM, List.mapM_append, List.mapM_cons, hitem]
  · have hitems : (itemsOfJson? v).map some = (itemsOfJson? w).map some :=
      congrArg (fun p => p.1.map some) ih
    refine congrArg (none, ·) ?_
    rw [ofJson?, ofJson?, Kind.ofMembers?_sameBut hv hr h, childrenOfMembers?_eq_field,
      childrenOfMembers?_eq_field, (h _).optional hitems,
      (h _).optional (StringMap.orderless_ofJson? hv hr)]

theorem orderless_ofJson? : Orderless ofJson? := orderless_itemsOfJson?_ofJson?.comp Prod.snd

/-- A text whose value is a reordering of another's is read as the same tree, or refused as well. -/
theorem read?_reordered {j k : Json} (hd : j.NamesDistinct) (hr : Reordered j k) {s t : String}
    (hs : ofText? s = some j) (ht : ofText? t = some k) : read? t = read? s :=
  read?_of_reordered orderless_ofJson? hd hr hs ht

/-- A link that says first what it is, as do its reference and its label. -/
def typesFirst : Json :=
  .object [("type", .string "link"),
    ("reference", .object [("type", .string "url"), ("reference", .string "a")]),
    ("children", .array [.object [("type", .string "word"), ("text", .string "b")]])]

/-- The same link, with everything that says what it is at the end. -/
def typesLast : Json :=
  .object [("children", .array [.object [("text", .string "b"), ("type", .string "word")]]),
    ("reference", .object [("reference", .string "a"), ("type", .string "url")]),
    ("type", .string "link")]

theorem reordered_typesLast : Reordered typesFirst typesLast := by
  have hreference := Reordered.members (.swap ("reference", .string "a") ("type", .string "url") [])
  have hlabel := Reordered.members (.swap ("text", .string "b") ("type", .string "word") [])
  refine .trans (.value [_] [_] "reference" hreference) ?_
  refine .trans (.value [_, _] [] "children" (.item [] [] hlabel)) ?_
  exact .members (List.reverse_perm _).symm

theorem read?_typesLast :
    typesFirst.NamesDistinct ∧ Reordered typesFirst typesLast ∧
      ofText? typesFirst.text = some typesFirst ∧ ofText? typesLast.text = some typesLast ∧
        read? typesLast.text = read? typesFirst.text ∧
          read? typesFirst.text = some (link { reference := .ofKind "a" .url } [word "b"]) := by
  have hd : typesFirst.NamesDistinct := by
    simp [typesFirst, NamesDistinct, NamesDistinctItems, NamesDistinctMembers]
  have hfirst : typesFirst.Exact := by simp [typesFirst, Exact, ExactItems, ExactMembers]
  have hlast : typesLast.Exact := by simp [typesLast, Exact, ExactItems, ExactMembers]
  have hs := ofText?_text hfirst
  have ht := ofText?_text hlast
  refine ⟨hd, reordered_typesLast, hs, ht, read?_reordered hd reordered_typesLast hs ht, ?_⟩
  rw [read?, Json.read?_text hfirst, if_pos (by decide)]
  rfl

end Block

end DocTree
