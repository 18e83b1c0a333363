import DocTree.Proofs.Block.RoundTrip
import DocTree.Source

/-!
# The document of a source, written and read again

What is read can be written without loss: a scheme is read as the built-in kind that it names, and a
dialect comes from a text (`portable_of_ofJson?`). The document of a source is valid and names its
dialect, so that reading it once more adds nothing (`toDocument_toDocument`).

What remains is the nesting. A source may leave out the metadata of a document, an object in the
written tree: a tree is written at most one level deeper than it was read (`depth_toJson_le`). The
document around a tree that is none adds two levels, so that a source nested as deep as may be can
give a document whose text is nested too deep.

Main result: `ofSource_jsonText`, with `ofSource_nested_63` for a source at the bound.
-/

namespace DocTree

/-! ## Depth and members -/

namespace Json

theorem depthMembers_le_iff {ms : List (String × Json)} {n : Nat} :
    depthMembers ms ≤ n ↔ ∀ m ∈ ms, m.2.depth ≤ n := by
  induction ms with
  | nil => simp [depthMembers]
  | cons m ms ih => rw [depthMembers, Nat.max_le, ih, List.forall_mem_cons]

theorem depth_le_of_mem {ms : List (String × Json)} {m : String × Json} (h : m ∈ ms) :
    m.2.depth ≤ depthMembers ms :=
  depthMembers_le_iff.mp (Nat.le_refl _) m h

theorem mem_of_field_eq_single {name : String} {ms : List (String × Json)} {v : Json}
    (h : field name ms = .single v) : (name, v) ∈ ms := by
  induction ms with
  | nil => cases h
  | cons m ms ih =>
    rw [field] at h
    split at h
    · rename_i hname
      split at h
      · obtain rfl := Field.single.inj h
        exact hname ▸ List.mem_cons_self
      · cases h
    · exact List.mem_cons_of_mem _ (ih h)

/-- A member that must occur does. -/
theorem exists_of_required_eq_some {α : Type} {name : String} {decode : Json → Option α}
    {ms : List (String × Json)} {a : α} (h : (field name ms).required decode = some a) :
    ∃ v, (name, v) ∈ ms ∧ decode v = some a := by
  cases hf : field name ms with
  | single v => exact ⟨v, mem_of_field_eq_single hf, by rwa [hf] at h⟩
  | _ => rw [hf] at h; cases h

end Json

theorem StringMap.depth_toJson (m : StringMap) : (toJson m).depth = 1 := by
  have h : Json.depthMembers (m.entries.map fun e => (e.1, Json.string e.2)) ≤ 0 := by
    refine Json.depthMembers_le_iff.mpr fun e he => ?_
    obtain ⟨d, -, rfl⟩ := List.mem_map.mp he
    exact Nat.le_refl _
  rw [toJson, Json.depth]
  omega

/-! ## References -/

theorem ResourceKind.not_ambiguous_ofScheme (s : String) : ¬ (ofScheme s).Ambiguous := by
  unfold ofScheme
  cases h : builtIn.find? fun k => k.scheme == s with
  | none =>
    rintro ⟨k, hk, he⟩
    exact List.find?_eq_none.mp h k hk (beq_iff_eq.mpr he)
  | some k =>
    have hk := List.mem_of_find?_eq_some h
    simp only [builtIn, List.mem_cons, List.not_mem_nil, or_false] at hk
    rcases hk with rfl | rfl | rfl | rfl | rfl | rfl | rfl | rfl | rfl | rfl | rfl | rfl <;>
      exact id

namespace Reference

theorem not_ambiguous_of_ofFields? {kind typed text bases parameters : Json.Field} {r : Reference}
    (h : ofFields? kind typed text bases parameters = some r) : ¬ r.kind.Ambiguous := by
  simp only [ofFields?, Option.bind_eq_bind, Option.bind_eq_some_iff, Option.pure_def,
    Option.some.injEq] at h
  obtain ⟨k, hk, -, -, -, -, -, -, -, -, rfl⟩ := h
  cases kind with
  | single v =>
    obtain ⟨s, -, rfl⟩ := Option.map_eq_some_iff.mp hk
    exact ResourceKind.not_ambiguous_ofScheme s
  | _ => cases hk

/-- The scheme of a reference is read as the built-in kind that it names. -/
theorem not_ambiguous_of_ofJson? {j : Json} {r : Reference} (h : ofJson? j = some r) :
    ¬ r.kind.Ambiguous := by
  cases j with
  | object ms => exact not_ambiguous_of_ofFields? h
  | array xs =>
    rw [ofJson?] at h
    split at h
    · exact not_ambiguous_of_ofFields? h
    · cases h
  | _ => cases h

/-- A reference is read from an object or from a list. -/
theorem depth_pos_of_ofJson? {j : Json} {r : Reference} (h : ofJson? j = some r) : 0 < j.depth := by
  cases j with
  | object ms | array xs => exact Nat.lt_of_lt_of_le Nat.zero_lt_one (Nat.le_add_right ..)
  | _ => cases h

theorem depth_toJson_le (r : Reference) : r.toJson.depth ≤ 2 := by
  have hstrings : ∀ ts : List String, Json.depthItems (ts.map Json.string) = 0 := by
    intro ts
    induction ts with
    | nil => rfl
    | cons t ts ih => rw [List.map_cons, Json.depthItems, ih]; rfl
  rw [toJson, Json.depth, Nat.add_comm]
  refine Nat.succ_le_succ (Json.depthMembers_le_iff.mpr fun m hm => ?_)
  simp only [List.mem_append, List.mem_cons, List.not_mem_nil, or_false] at hm
  rcases hm with ((rfl | rfl | rfl) | hm) | hm
  · exact Nat.zero_le 1
  · exact Nat.zero_le 1
  · exact Nat.zero_le 1
  · split at hm
    · cases hm
    · obtain rfl := List.mem_singleton.mp hm
      rw [Json.depth, hstrings]
  · split at hm
    · cases hm
    · obtain rfl := List.mem_singleton.mp hm
      exact (StringMap.depth_toJson r.parameters).le

end Reference

/-! ## Kinds -/

theorem Dialect.named_of_ofJson? {j : Json} {d : Dialect} (h : ofJson? j = some d) : d.Named := by
  cases j with
  | string s =>
    refine ⟨s, ?_⟩
    cases hs : parse s with
    | error e => rw [ofJson?, hs] at h; cases h
    | ok d' => rw [ofJson?, hs] at h; cases h; rfl
  | _ => cases h

namespace Kind

section
variable {ms : List (String × Json)}

theorem exists_reference_of_targetOfMembers? {t : Target} (h : targetOfMembers? ms = some t) :
    ∃ v, ("reference", v) ∈ ms ∧ Reference.ofJson? v = some t.reference := by
  simp only [targetOfMembers?, Option.bind_eq_bind, Option.bind_eq_some_iff, Option.pure_def,
    Option.some.injEq] at h
  obtain ⟨r, hr, -, -, rfl⟩ := h
  exact Json.exists_of_required_eq_some hr

theorem tag_of_containerOfMembers? {t : ContainerTag} {c : Container}
    (h : containerOfMembers? ms t = some c) : c.tag = t := by
  cases t <;> simp only [containerOfMembers?, Option.map_eq_some_iff, Option.bind_eq_bind,
    Option.bind_eq_some_iff, Option.pure_def, Option.some.injEq] at h
  case header =>
    obtain ⟨_, -, _, -, rfl⟩ := h
    rfl
  case document | metadata | list | format | link | macroMarker =>
    obtain ⟨_, -, rfl⟩ := h
    rfl
  all_goals
    subst h
    rfl

theorem tag_of_leafOfMembers? {t : LeafTag} {l : Leaf} (h : leafOfMembers? ms t = some l) :
    l.tag = t := by
  cases t <;> simp only [leafOfMembers?, Option.map_eq_some_iff, Option.bind_eq_bind,
    Option.bind_eq_some_iff, Option.pure_def, Option.some.injEq] at h
  case rawText | verbatim =>
    obtain ⟨_, -, _, -, rfl⟩ := h
    rfl
  case image | macroCall | word | specialSymbol | id | emptyLines =>
    obtain ⟨_, -, rfl⟩ := h
    rfl
  all_goals
    subst h
    rfl

theorem containerOfMembers?_of_ofMembers? {c : Container}
    (h : ofMembers? ms = some (.container c)) : containerOfMembers? ms c.tag = some c := by
  simp only [ofMembers?, Option.bind_eq_bind, Option.bind_eq_some_iff] at h
  obtain ⟨t, -, h⟩ := h
  cases t with
  | container t =>
    obtain ⟨c', hc, he⟩ := Option.map_eq_some_iff.mp h
    obtain rfl := Kind.container.inj he
    rwa [← tag_of_containerOfMembers? hc] at hc
  | leaf t =>
    obtain ⟨l, -, he⟩ := Option.map_eq_some_iff.mp h
    cases he

theorem leafOfMembers?_of_ofMembers? {l : Leaf} (h : ofMembers? ms = some (.leaf l)) :
    leafOfMembers? ms l.tag = some l := by
  simp only [ofMembers?, Option.bind_eq_bind, Option.bind_eq_some_iff] at h
  obtain ⟨t, -, h⟩ := h
  cases t with
  | container t =>
    obtain ⟨c, -, he⟩ := Option.map_eq_some_iff.mp h
    cases he
  | leaf t =>
    obtain ⟨l', hl, he⟩ := Option.map_eq_some_iff.mp h
    obtain rfl := Kind.leaf.inj he
    rwa [← tag_of_leafOfMembers? hl] at hl

/-- What a link or an image shows is read from its member of a reference. -/
theorem exists_reference_of_ofMembers? {k : Kind} (h : ofMembers? ms = some k) {t : Target}
    (ht : k.target? = some t) :
    ∃ v, ("reference", v) ∈ ms ∧ Reference.ofJson? v = some t.reference := by
  unfold target? at ht
  split at ht
  · obtain rfl := Option.some.inj ht
    obtain ⟨t', hread, he⟩ := Option.map_eq_some_iff.mp (containerOfMembers?_of_ofMembers? h)
    obtain rfl := Container.link.inj he
    exact exists_reference_of_targetOfMembers? hread
  · obtain rfl := Option.some.inj ht
    obtain ⟨t', hread, he⟩ := Option.map_eq_some_iff.mp (leafOfMembers?_of_ofMembers? h)
    obtain rfl := Leaf.image.inj he
    exact exists_reference_of_targetOfMembers? hread
  · cases ht

theorem named_of_ofMembers? {content : String} {dialect : Dialect}
    (h : ofMembers? ms = some (.leaf (.rawText content dialect))) : dialect.Named := by
  have hl := leafOfMembers?_of_ofMembers? h
  simp only [Leaf.tag, leafOfMembers?, Option.bind_eq_bind, Option.bind_eq_some_iff,
    Option.pure_def, Option.some.injEq] at hl
  obtain ⟨_, -, d, hd, he⟩ := hl
  obtain ⟨-, rfl⟩ := Leaf.rawText.inj he
  obtain ⟨v, -, hv⟩ := Json.exists_of_required_eq_some hd
  exact Dialect.named_of_ofJson? hv

/-- Nothing in a kind that was read is lost when it is written. -/
theorem portable_of_ofMembers? {k : Kind} (h : ofMembers? ms = some k) : k.Portable := by
  have htarget : ∀ t, k.target? = some t → ¬ t.reference.kind.Ambiguous := by
    intro t ht
    obtain ⟨v, -, hv⟩ := exists_reference_of_ofMembers? h ht
    exact Reference.not_ambiguous_of_ofJson? hv
  cases k with
  | container c =>
    cases c with
    | link t => exact htarget t rfl
    | _ => trivial
  | leaf l =>
    cases l with
    | image t => exact htarget t rfl
    | rawText content dialect => exact named_of_ofMembers? h
    | _ => trivial

/-- A kind is written at most one level deeper than it was read. -/
theorem depth_dataMembers_le {k : Kind} (h : ofMembers? ms = some k) :
    ∀ m ∈ k.dataMembers, m.2.depth ≤ Json.depthMembers ms + 1 := by
  refine dataMembers_values (P := fun v => v.depth ≤ Json.depthMembers ms + 1) k
    (fun _ => Nat.zero_le _) (fun _ => Nat.zero_le _) (fun _ => Nat.zero_le _) (fun m => ?_)
    fun t ht => ?_
  · rw [StringMap.depth_toJson]
    exact Nat.le_add_left ..
  · -- Where a reference was read there is one level already, and no reference has more than two.
    obtain ⟨v, hmem, hv⟩ := exists_reference_of_ofMembers? h ht
    have hpos := Reference.depth_pos_of_ofJson? hv
    have hms : v.depth ≤ Json.depthMembers ms := Json.depth_le_of_mem hmem
    have hr := t.reference.depth_toJson_le
    omega

end

end Kind

/-! ## Blocks -/

namespace Block

/-- The children of a block that was read stand in its member of children. -/
theorem children_of_childrenOfMembers? {ms : List (String × Json)} {found : Option (List Block)}
    (h : childrenOfMembers? ms = some found) :
    found.getD [] = [] ∨
      ∃ js, ("children", .array js) ∈ ms ∧ listOfJson? js = some (found.getD []) := by
  induction ms generalizing found with
  | nil =>
    obtain rfl := Option.some.inj h
    exact .inl rfl
  | cons m ms ih =>
    rw [childrenOfMembers?] at h
    split at h
    · cases h
    · rename_i later hlater
      split at h
      · rename_i hname
        split at h
        · rename_i bs _ hbs
          obtain rfl := Option.some.inj h
          cases hv : m.2 with
          | array js =>
            rw [hv, itemsOfJson?] at hbs
            exact .inr ⟨js, by simp [← hname, ← hv], hbs⟩
          | _ => rw [hv] at hbs; cases hbs
        · cases h
      · obtain rfl := Option.some.inj h
        rcases ih hlater with hnone | ⟨js, hmem, hjs⟩
        · exact .inl hnone
        · exact .inr ⟨js, List.mem_cons_of_mem _ hmem, hjs⟩

/-- What holds of all blocks that are read from values, by induction on the blocks. -/
theorem listOfJson?_induction {P : List Json → List Block → Prop} (nil : P [] [])
    (cons : ∀ ms js k cs ps bs, Kind.ofMembers? ms = some k →
      (cs = [] ∨ ∃ items, ("children", .array items) ∈ ms ∧ P items cs) → P js bs →
      P (.object ms :: js) (⟨k, cs, ps⟩ :: bs))
    {bs : List Block} : ∀ {js : List Json}, listOfJson? js = some bs → P js bs := by
  induction bs using forestInduction with
  | nil =>
    intro js h
    cases js with
    | nil => exact nil
    | cons j js =>
      rw [listOfJson?] at h
      split at h <;> cases h
  | cons k cs ps bs ihc ihb =>
    intro js h
    cases js with
    | nil => cases h
    | cons j js =>
      rw [listOfJson?] at h
      split at h
      · rename_i b bs' hb hbs
        obtain ⟨rfl, rfl⟩ := List.cons.inj (Option.some.inj h)
        cases j with
        | object ms =>
          rw [ofJson?] at hb
          split at hb
          · rename_i kind found ps' hk hfound hps
            obtain ⟨rfl, rfl, rfl⟩ := Block.mk.inj (Option.some.inj hb)
            refine cons ms js _ _ _ _ hk ?_ (ihb hbs)
            rcases children_of_childrenOfMembers? hfound with hnone | ⟨items, hmem, hitems⟩
            · exact .inl hnone
            · exact .inr ⟨items, hmem, ihc hitems⟩
          · cases hb
        | _ => cases hb
      · cases h

/-- Nothing in blocks that were read is lost when they are written. -/
theorem portable_of_listOfJson? {js : List Json} {bs : List Block} (h : listOfJson? js = some bs) :
    ∀ b ∈ bs, b.Portable := by
  refine listOfJson?_induction (P := fun _ bs => ∀ b ∈ bs, b.Portable) (by simp) ?_ h
  intro ms js k cs ps bs hk hcs hbs
  refine List.forall_mem_cons.mpr ⟨all_mk_iff.mpr ⟨Kind.portable_of_ofMembers? hk, ?_⟩, hbs⟩
  rcases hcs with rfl | ⟨_, -, hcs⟩
  · simp
  · exact hcs

/-- Blocks are written at most one level deeper than they were read. -/
theorem depthItems_listToJson_le {js : List Json} {bs : List Block}
    (h : listOfJson? js = some bs) :
    Json.depthItems (listToJson bs) ≤ Json.depthItems js + 1 := by
  refine listOfJson?_induction
    (P := fun js bs => Json.depthItems (listToJson bs) ≤ Json.depthItems js + 1)
    (Nat.zero_le _) ?_ h
  intro ms js k cs ps bs hk hcs hbs
  have hb : (toJson ⟨k, cs, ps⟩).depth ≤ (Json.object ms).depth + 1 := by
    rw [toJson_mk, Json.depth, Json.depth, Nat.add_assoc]
    refine Nat.add_le_add_left (Json.depthMembers_le_iff.mpr ?_) 1
    refine members_values (P := fun v => v.depth ≤ Json.depthMembers ms + 1) (Nat.zero_le _)
      (Kind.depth_dataMembers_le hk) (fun hne => ?_) ?_
    · -- The children were read from a member, which is as deep as they are and an array more.
      obtain ⟨items, hmem, hitems⟩ := hcs.resolve_left hne
      have hd := Json.depth_le_of_mem hmem
      rw [Json.depth] at hd ⊢
      omega
    · rw [StringMap.depth_toJson]
      exact Nat.le_add_left ..
  rw [listToJson, Json.depthItems, Json.depthItems]
  omega

theorem listOfJson?_singleton {j : Json} {b : Block} (h : ofJson? j = some b) :
    listOfJson? [j] = some [b] := by
  rw [listOfJson?, h]
  rfl

theorem portable_of_ofJson? {j : Json} {b : Block} (h : ofJson? j = some b) : b.Portable :=
  portable_of_listOfJson? (listOfJson?_singleton h) b List.mem_cons_self

theorem depth_toJson_le {j : Json} {b : Block} (h : ofJson? j = some b) :
    b.toJson.depth ≤ j.depth + 1 := by
  have hl := depthItems_listToJson_le (listOfJson?_singleton h)
  simpa [listToJson, Json.depthItems] using hl

/-! ## Documents -/

theorem contains_nameDialect (d : Dialect) (m : StringMap) :
    (nameDialect d m).contains dialectKey = true := by
  unfold nameDialect
  split
  · assumption
  · simp [KeyMap.contains]

/-- A dialect is named once. -/
@[simp] theorem nameDialect_nameDialect (d d' : Dialect) (m : StringMap) :
    nameDialect d' (nameDialect d m) = nameDialect d m :=
  if_pos (contains_nameDialect d m)

/-- A document keeps all but its metadata; any other block becomes the only child of one. -/
theorem toDocument_cases (d : Dialect) (b : Block) :
    (∃ m cs ps, b = ⟨.container (.document m), cs, ps⟩ ∧
      b.toDocument d = ⟨.container (.document (nameDialect d m)), cs, ps⟩) ∨
    b.toDocument d = document (nameDialect d ∅) [b] := by
  obtain ⟨k, cs, ps⟩ := b
  cases k with
  | container c =>
    cases c with
    | document m => exact .inl ⟨m, cs, ps, rfl, rfl⟩
    | _ => exact .inr rfl
  | leaf l => exact .inr rfl

/-- Making a document is done once. -/
@[simp] theorem toDocument_toDocument (d d' : Dialect) (b : Block) :
    (b.toDocument d).toDocument d' = b.toDocument d := by
  have hroot : ∀ m cs ps, toDocument d' ⟨.container (.document (nameDialect d m)), cs, ps⟩ =
      ⟨.container (.document (nameDialect d m)), cs, ps⟩ := by
    intro m cs ps
    simp only [toDocument, nameDialect_nameDialect]
  rcases toDocument_cases d b with ⟨m, cs, ps, -, h⟩ | h
  · rw [h, hroot]
  · rw [h]
    exact hroot ∅ [b] ∅

theorem Valid.toDocument {b : Block} (d : Dialect) (h : b.Valid) : (b.toDocument d).Valid := by
  rcases toDocument_cases d b with ⟨m, cs, ps, rfl, hd⟩ | hd
  · rw [hd, valid_mk_iff]
    exact valid_mk_iff.mp h
  · rw [hd]
    exact valid_mk_iff.mpr ⟨⟨nofun, fun _ => rfl⟩, List.forall_mem_singleton.mpr h⟩

theorem Portable.toDocument {b : Block} (d : Dialect) (h : b.Portable) :
    (b.toDocument d).Portable := by
  rcases toDocument_cases d b with ⟨m, cs, ps, rfl, hd⟩ | hd
  · rw [hd]
    exact all_mk_iff.mpr ⟨trivial, (all_mk_iff.mp h).2⟩
  · rw [hd]
    exact all_mk_iff.mpr ⟨trivial, List.forall_mem_singleton.mpr h⟩

theorem depth_document_singleton (m : StringMap) (b : Block) :
    (document m [b]).toJson.depth = b.toJson.depth + 2 := by
  have h : (document m [b]).toJson = .object [("type", .string "document"),
      ("meta_data", StringMap.toJson m), ("children", .array [b.toJson])] := by
    show toJson ⟨.container (.document m), [b], ∅⟩ = _
    rw [toJson_mk]
    rfl
  rw [h]
  simp only [Json.depth, Json.depthMembers, Json.depthItems, StringMap.depth_toJson]
  omega

theorem depth_toDocument_le (d : Dialect) (b : Block) :
    (b.toDocument d).toJson.depth ≤ b.toJson.depth + 2 := by
  rcases toDocument_cases d b with ⟨m, cs, ps, rfl, hd⟩ | hd
  · rw [hd, toJson_mk, toJson_mk]
    simp [Kind.dataMembers, Kind.containerMembers, Json.depth, Json.depthMembers,
      StringMap.depth_toJson]
  · rw [hd, depth_document_singleton]

/-- The sources that give a document. -/
theorem ofSource_eq_ok_iff {source : String} {d : Block} :
    ofSource source = .ok d ↔ ∃ b, read? source = some b ∧ b.Valid ∧ d = b.toDocument .json := by
  unfold ofSource Valid
  cases read? source with
  | none => simp
  | some b =>
    cases hf : b.fault? with
    | none => simp [hf, eq_comm]
    | some f => simp [hf]

theorem valid_of_ofSource {source : String} {d : Block} (h : ofSource source = .ok d) :
    d.Valid := by
  obtain ⟨b, -, hvalid, rfl⟩ := ofSource_eq_ok_iff.mp h
  exact hvalid.toDocument .json

theorem exists_document_of_ofSource {source : String} {d : Block} (h : ofSource source = .ok d) :
    ∃ m cs ps, d = ⟨.container (.document m), cs, ps⟩ := by
  obtain ⟨b, -, -, rfl⟩ := ofSource_eq_ok_iff.mp h
  rcases toDocument_cases .json b with ⟨m, cs, ps, -, hd⟩ | hd
  · exact ⟨_, cs, ps, hd⟩
  · exact ⟨_, [b], ∅, hd⟩

/-- The document of a written value that is decoded to a valid block. -/
theorem ofSource_text {j : Json} (hx : j.Exact) (hd : j.depth ≤ 127) {b : Block}
    (hb : ofJson? j = some b) (hv : b.Valid) : ofSource j.text = .ok (b.toDocument .json) :=
  ofSource_eq_ok_iff.mpr ⟨b, by rw [read?_text hx, if_pos hd, hb], hv, rfl⟩

theorem ofSource_eq_malformed {source : String} (h : read? source = none) :
    ofSource source = .error .malformed := by
  rw [ofSource, h]

/-! ## Main results -/

/-- **Documents of sources are read back as they are** if their text is nested at most 127 deep,
and refused if it is nested deeper. The text is nested at most three levels deeper than the
source. -/
theorem ofSource_jsonText {source : String} {d : Block} (h : ofSource source = .ok d) :
    (d.toJson.depth ≤ 127 → ofSource d.jsonText = .ok d) ∧
      (128 ≤ d.toJson.depth → ofSource d.jsonText = .error .malformed) ∧
      ∃ j, Json.read? source = some j ∧ d.toJson.depth ≤ j.depth + 3 := by
  obtain ⟨b, hread, hvalid, rfl⟩ := ofSource_eq_ok_iff.mp h
  obtain ⟨j, hj, hb⟩ := Option.bind_eq_some_iff.mp hread
  have hportable := (portable_of_ofJson? hb).toDocument .json
  refine ⟨fun hd => ?_, fun hd => ?_, j, hj, ?_⟩
  · exact ofSource_eq_ok_iff.mpr ⟨_, read?_jsonText_of_portable hportable hd, hvalid.toDocument .json,
      (toDocument_toDocument ..).symm⟩
  · exact ofSource_eq_malformed (read?_jsonText_of_deep hd)
  · have hbare := depth_toJson_le hb
    have hdoc := depth_toDocument_le .json b
    omega

/-- A group with its members in another order and a default written out. -/
theorem ofSource_jsonText_group :
    ofSource "\x7b\"children\":[],\"type\":\"group\"\x7d" =
        .ok (document (nameDialect .json ∅) [group []]) ∧
      ofSource (document (nameDialect .json ∅) [group []]).jsonText =
        .ok (document (nameDialect .json ∅) [group []]) := by
  have htext : "\x7b\"children\":[],\"type\":\"group\"\x7d" =
      (Json.object [("children", .array []), ("type", .string "group")]).text := rfl
  have h : ofSource "\x7b\"children\":[],\"type\":\"group\"\x7d" =
      .ok (document (nameDialect .json ∅) [group []]) := by
    rw [htext]
    exact ofSource_text (by simp [Json.Exact, Json.ExactMembers, Json.ExactItems]) (by decide)
      (b := group []) rfl (by decide)
  exact ⟨h, (ofSource_jsonText h).1 (by rw [depth_document_singleton]; decide)⟩

/-! ### A source at the bound -/

theorem valid_nested (n : Nat) : (nested n).Valid := by
  induction n with
  | zero => decide
  | succ n ih => exact valid_mk_iff.mpr ⟨⟨nofun, fun _ => rfl⟩, List.forall_mem_singleton.mpr ih⟩

theorem portable_nested (n : Nat) : (nested n).Portable := by
  induction n with
  | zero => exact all_mk_iff.mpr ⟨trivial, by simp⟩
  | succ n ih => exact all_mk_iff.mpr ⟨trivial, List.forall_mem_singleton.mpr ih⟩

/-- Groups nested as deep as a source may be make a document that is written too deep. -/
theorem ofSource_nested_63 :
    ∃ d, ofSource (nested 63).jsonText = .ok d ∧ ofSource d.jsonText = .error .malformed := by
  have hread : read? (nested 63).jsonText = some (nested 63) :=
    read?_jsonText_of_portable (portable_nested 63) (by rw [depth_nested])
  refine ⟨_, ofSource_eq_ok_iff.mpr ⟨_, hread, valid_nested 63, rfl⟩, ?_⟩
  refine ofSource_eq_malformed (read?_jsonText_of_deep ?_)
  show 128 ≤ (document (nameDialect .json ∅) [nested 63]).toJson.depth
  rw [depth_document_singleton, depth_nested]
  decide

end Block

end DocTree
