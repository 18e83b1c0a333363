/-!
# Maps keyed by strings

A `KeyMap` is the list of its entries, with strictly increasing keys in code point order. Two maps
with the same entries are therefore equal, and every listing of a map is in key order.

Main statements: `get?_insert` and `get?_erase` say what an update does to a lookup.
-/

namespace DocTree

/-- A finite map from strings, kept as its entries in key order. -/
structure KeyMap (β : Type u) where
  entries : List (String × β) := []
  sorted : entries.Pairwise (fun a b => a.1 < b.1) := by exact List.Pairwise.nil
deriving DecidableEq

/-- A map from strings to strings: parameters, metadata, icon mappings. -/
abbrev StringMap := KeyMap String

namespace KeyMap

variable {β : Type u}

@[ext] theorem ext_entries {m n : KeyMap β} (h : m.entries = n.entries) : m = n := by
  cases m; cases n; cases h; rfl

/-! ## Lookup -/

instance : EmptyCollection (KeyMap β) := ⟨{}⟩

instance : Inhabited (KeyMap β) := ⟨∅⟩

def isEmpty (m : KeyMap β) : Bool := m.entries.isEmpty

def size (m : KeyMap β) : Nat := m.entries.length

def keys (m : KeyMap β) : List String := m.entries.map (·.1)

/-- The value at the first entry with the key. -/
def lookupEntry (key : String) : List (String × β) → Option β
  | [] => none
  | e :: es => if key = e.1 then some e.2 else lookupEntry key es

def get? (m : KeyMap β) (key : String) : Option β := lookupEntry key m.entries

def contains (m : KeyMap β) (key : String) : Bool := (m.get? key).isSome

theorem lookupEntry_eq_none {key : String} {es : List (String × β)} (h : ∀ e ∈ es, e.1 ≠ key) :
    lookupEntry key es = none := by
  induction es with
  | nil => rfl
  | cons e es ih =>
    obtain ⟨he, hes⟩ := List.forall_mem_cons.mp h
    rw [lookupEntry, if_neg (Ne.symm he), ih hes]

theorem lookupEntry_eq_some_iff {key : String} {value : β} {es : List (String × β)}
    (h : es.Pairwise (fun a b => a.1 < b.1)) :
    lookupEntry key es = some value ↔ (key, value) ∈ es := by
  induction es with
  | nil => exact ⟨nofun, nofun⟩
  | cons e es ih =>
    obtain ⟨he, hes⟩ := List.pairwise_cons.mp h
    rw [lookupEntry, List.mem_cons]
    by_cases hkey : key = e.1
    · have hnotMem : (key, value) ∉ es := fun hmem =>
        String.lt_irrefl e.1 (hkey ▸ he (key, value) hmem)
      rw [if_pos hkey, or_iff_left hnotMem, Option.some.injEq, hkey]
      exact ⟨fun hvalue => hvalue ▸ rfl, fun heq => congrArg Prod.snd heq.symm⟩
    · rw [if_neg hkey, ih hes, or_iff_right fun heq => hkey (congrArg Prod.fst heq)]

/-- What is looked up is an entry. -/
theorem get?_eq_some_iff {m : KeyMap β} {key : String} {value : β} :
    m.get? key = some value ↔ (key, value) ∈ m.entries :=
  lookupEntry_eq_some_iff m.sorted

/-- Of the entries that could be found, the one with the least key is. -/
theorem le_of_find? {m : KeyMap β} {p : String × β → Bool} {d e : String × β}
    (h : m.entries.find? p = some e) (hd : d ∈ m.entries) (hp : p d = true) : e.1 ≤ d.1 := by
  obtain ⟨-, before, after, hsplit, hbefore⟩ := List.find?_eq_some_iff_append.mp h
  have hsorted := hsplit ▸ m.sorted
  rw [hsplit] at hd
  rcases List.mem_append.mp hd with hd | hd
  · have hno := hbefore d hd
    rw [hp] at hno
    cases hno
  · rcases List.mem_cons.mp hd with rfl | hd
    · exact String.le_refl d.1
    · have hlt := (List.pairwise_cons.mp (List.pairwise_append.mp hsorted).2.1).1 d hd
      exact String.not_lt.mp (String.lt_asymm hlt)

@[simp] theorem entries_empty : (∅ : KeyMap β).entries = [] := rfl

@[simp] theorem get?_empty (key : String) : (∅ : KeyMap β).get? key = none := rfl

theorem isEmpty_iff {m : KeyMap β} : m.isEmpty = true ↔ m = ∅ := by
  cases m with
  | mk es h => cases es <;> simp [isEmpty, EmptyCollection.emptyCollection]

/-! ## Insertion -/

/-- Put an entry where its key belongs, in place of an entry with the same key. -/
def insertEntry (key : String) (value : β) : List (String × β) → List (String × β)
  | [] => [(key, value)]
  | e :: es =>
    if key < e.1 then (key, value) :: e :: es
    else if key = e.1 then (key, value) :: es
    else e :: insertEntry key value es

theorem mem_insertEntry {key : String} {value : β} {es : List (String × β)} {e : String × β}
    (h : e ∈ insertEntry key value es) : e = (key, value) ∨ e ∈ es := by
  induction es with
  | nil => simpa [insertEntry] using h
  | cons d ds ih =>
    unfold insertEntry at h
    split at h
    · simpa using h
    · split at h <;> grind

theorem sorted_insertEntry (key : String) (value : β) {es : List (String × β)}
    (h : es.Pairwise (fun a b => a.1 < b.1)) :
    (insertEntry key value es).Pairwise (fun a b => a.1 < b.1) := by
  induction es with
  | nil => simp [insertEntry]
  | cons d ds ih =>
    rw [List.pairwise_cons] at h
    unfold insertEntry
    split
    · rename_i hlt
      refine List.pairwise_cons.mpr ⟨fun e he => ?_, List.pairwise_cons.mpr h⟩
      rcases List.mem_cons.mp he with rfl | he
      · exact hlt
      · exact String.lt_trans hlt (h.1 e he)
    · split
      · rename_i heq
        exact List.pairwise_cons.mpr ⟨fun e he => by rw [heq]; exact h.1 e he, h.2⟩
      · rename_i hlt hne
        refine List.pairwise_cons.mpr ⟨fun e he => ?_, ih h.2⟩
        rcases mem_insertEntry he with rfl | he
        · exact Std.lt_of_le_of_ne (String.not_lt.mp hlt) (Ne.symm hne)
        · exact h.1 e he

/-- The last value given for a key is the one kept. -/
def insert (m : KeyMap β) (key : String) (value : β) : KeyMap β where
  entries := insertEntry key value m.entries
  sorted := sorted_insertEntry key value m.sorted

theorem lookupEntry_insertEntry (key : String) (value : β) (k : String) (es : List (String × β)) :
    lookupEntry k (insertEntry key value es) =
      if k = key then some value else lookupEntry k es := by
  induction es with
  | nil => rfl
  | cons d ds ih =>
    unfold insertEntry
    split
    · rfl
    · split
      · rename_i heq
        by_cases h : k = key <;> simp [lookupEntry, h, ← heq]
      · rename_i hne
        simp only [lookupEntry, ih]
        by_cases h : k = key <;> simp [h, hne]

@[simp] theorem get?_insert (m : KeyMap β) (key : String) (value : β) (k : String) :
    (m.insert key value).get? k = if k = key then some value else m.get? k :=
  lookupEntry_insertEntry key value k m.entries

/-! ## Removal -/

def erase (m : KeyMap β) (key : String) : KeyMap β where
  entries := m.entries.filter (·.1 != key)
  sorted := m.sorted.filter _

theorem lookupEntry_filter_ne (key k : String) (es : List (String × β)) :
    lookupEntry k (es.filter (·.1 != key)) = if k = key then none else lookupEntry k es := by
  induction es with
  | nil => simp [lookupEntry]
  | cons d ds ih =>
    rw [List.filter_cons]
    split <;> grind [lookupEntry]

@[simp] theorem get?_erase (m : KeyMap β) (key k : String) :
    (m.erase key).get? k = if k = key then none else m.get? k :=
  lookupEntry_filter_ne key k m.entries

/-! ## Many entries at once -/

/-- Insert entries in order, so that a later one wins. -/
def insertAll (m : KeyMap β) (es : List (String × β)) : KeyMap β :=
  es.foldl (fun acc e => acc.insert e.1 e.2) m

def ofList (es : List (String × β)) : KeyMap β := (∅ : KeyMap β).insertAll es

/-- The entries of `n` over those of `m`. -/
def override (m n : KeyMap β) : KeyMap β := m.insertAll n.entries

@[simp] theorem insertAll_nil (m : KeyMap β) : m.insertAll [] = m := rfl

@[simp] theorem insertAll_cons (m : KeyMap β) (e : String × β) (es : List (String × β)) :
    m.insertAll (e :: es) = (m.insert e.1 e.2).insertAll es := rfl

theorem insertEntry_of_forall_lt {key : String} {value : β} {es : List (String × β)}
    (h : ∀ e ∈ es, e.1 < key) : insertEntry key value es = es ++ [(key, value)] := by
  induction es with
  | nil => rfl
  | cons d ds ih =>
    have hd := h d List.mem_cons_self
    rw [insertEntry, if_neg (String.lt_asymm hd), if_neg (fun he => String.lt_irrefl _ (he ▸ hd)),
      ih fun e he => h e (List.mem_cons_of_mem _ he), List.cons_append]

/-- Entries that come in key order are put at the end, one after the other. -/
theorem entries_insertAll {m : KeyMap β} {es : List (String × β)}
    (h : (m.entries ++ es).Pairwise (fun a b => a.1 < b.1)) :
    (m.insertAll es).entries = m.entries ++ es := by
  induction es generalizing m with
  | nil => simp
  | cons e es ih =>
    have hlast : ∀ d ∈ m.entries, d.1 < e.1 := fun d hd =>
      (List.pairwise_append.mp h).2.2 d hd e List.mem_cons_self
    have hinsert : (m.insert e.1 e.2).entries = m.entries ++ [e] := insertEntry_of_forall_lt hlast
    rw [insertAll_cons, ih, hinsert, List.append_assoc, List.singleton_append]
    rwa [hinsert, List.append_assoc, List.singleton_append]

@[simp] theorem ofList_entries (m : KeyMap β) : ofList m.entries = m :=
  ext_entries (entries_insertAll m.sorted)

theorem get?_insertAll {es : List (String × β)} (h : es.Pairwise (fun a b => a.1 < b.1))
    (m : KeyMap β) (key : String) :
    (m.insertAll es).get? key = (lookupEntry key es).or (m.get? key) := by
  induction es generalizing m with
  | nil => rfl
  | cons e es ih =>
    obtain ⟨he, hes⟩ := List.pairwise_cons.mp h
    rw [insertAll_cons, ih hes, get?_insert, lookupEntry]
    by_cases hkey : key = e.1
    · have hnone : lookupEntry key es = none :=
        lookupEntry_eq_none fun d hd heq => String.lt_irrefl d.1 ((heq.trans hkey) ▸ he d hd)
      rw [if_pos hkey, if_pos hkey, hnone, Option.none_or, Option.some_or]
    · rw [if_neg hkey, if_neg hkey]

/-- The upper map is asked first. -/
theorem get?_override (m n : KeyMap β) (key : String) :
    (m.override n).get? key = (n.get? key).or (m.get? key) :=
  get?_insertAll n.sorted m key

end KeyMap

end DocTree
