import DocTree.Proofs.Block.MemberOrder
import DocTree.Proofs.Block.Positions
import DocTree.Proofs.Json.RoundTrip

/-!
# Written trees are read back

A written tree says all there is to say about the tree, with two exceptions: a custom kind of
resource under a built-in keyword is read as the built-in kind, and a dialect is read from its
identifier, so that a family under a name of its own loses that name. A tree with neither
(`Block.Portable`) is read back as it was, if its text is not nested too deep.

A block's members have different names, and each is looked up by its own. The members that hold the
data of a kind are therefore read as if they stood alone (`containerOfMembers?_congr`).

Main result: `read?_jsonText`.
-/

namespace DocTree

/-! ## What is read as it was written -/

/-- A custom kind of resource under the keyword of a built-in one. -/
def ResourceKind.Ambiguous : ResourceKind → Prop
  | custom s => ∃ k ∈ builtIn, k.scheme = s
  | _ => False

/-- A dialect that some text names. -/
def Dialect.Named (d : Dialect) : Prop := ∃ text, parse text = .ok d

/-- Nothing in the data of a kind is lost when it is written. -/
def Kind.Portable : Kind → Prop
  | .container (.link t) => ¬ t.reference.kind.Ambiguous
  | .leaf (.image t) => ¬ t.reference.kind.Ambiguous
  | .leaf (.rawText _ dialect) => dialect.Named
  | _ => True

/-- Nothing in a tree is lost when it is written. -/
def Block.Portable (b : Block) : Prop := b.All fun x => x.kind.Portable

theorem ResourceKind.ofScheme_scheme {k : ResourceKind} (h : ¬ k.Ambiguous) :
    ofScheme k.scheme = k := by
  cases k with
  | custom s =>
    rw [ofScheme, List.find?_eq_none.mpr]
    · rfl
    · intro k hk he
      exact h ⟨k, hk, beq_iff_eq.mp he⟩
  | _ => rfl

theorem Dialect.Named.parse_idText {d : Dialect} (h : d.Named) : parse d.idText = .ok d := by
  obtain ⟨text, ht⟩ := h
  rwa [idText_of_parse ht]

/-! ## Maps and references -/

theorem StringMap.entriesOfMembers?_map (es : List (String × String)) :
    entriesOfMembers? (es.map fun e => (e.1, .string e.2)) = some es := by
  induction es with
  | nil => rfl
  | cons e es ih =>
    rw [List.map_cons, entriesOfMembers?, ih]
    rfl

@[simp] theorem StringMap.ofJson?_toJson (m : StringMap) : ofJson? (toJson m) = some m := by
  rw [toJson, ofJson?, entriesOfMembers?_map, Option.map_some, KeyMap.ofList_entries]

namespace Reference

theorem basesOfJson?_strings (bases : List String) :
    basesOfJson? (.array (bases.map Json.string)) = some bases := by
  have h : (bases.map Json.string).mapM Json.string? = some bases := by
    induction bases with
    | nil => rfl
    | cons b bs ih => rw [List.map_cons, List.mapM_cons, ih]; rfl
  exact h

/-- The members of a written reference, looked up by name. -/
theorem fields_toJson (r : Reference) :
    ofJson? r.toJson = ofFields? (.single (.string r.kind.scheme)) (.single (.bool r.typed))
      (.single (.string r.text))
      (if r.bases.isEmpty then .missing else .single (.array (r.bases.map Json.string)))
      (if r.parameters.isEmpty then .missing else .single (StringMap.toJson r.parameters)) := by
  rw [toJson, ofJson?]
  cases r.bases.isEmpty <;> cases r.parameters.isEmpty <;> simp [Json.field]

theorem ofJson?_toJson {r : Reference} (h : ¬ r.kind.Ambiguous) : ofJson? r.toJson = some r := by
  have hkind : kindOfJson? (.string r.kind.scheme) = some r.kind := by
    rw [kindOfJson?, Json.string?, Option.map_some, ResourceKind.ofScheme_scheme h]
  have hbases : (if r.bases.isEmpty then Json.Field.missing
      else .single (.array (r.bases.map Json.string))).optional [] basesOfJson? =
        some r.bases := by
    split
    · rename_i hempty
      rw [Json.Field.optional, List.isEmpty_iff.mp hempty]
    · exact basesOfJson?_strings r.bases
  have hparams : (if r.parameters.isEmpty then Json.Field.missing
      else .single (StringMap.toJson r.parameters)).optional ∅ StringMap.ofJson? =
        some r.parameters := by
    split
    · rename_i hempty
      rw [Json.Field.optional, KeyMap.isEmpty_iff.mp hempty]
    · exact StringMap.ofJson?_toJson r.parameters
  rw [fields_toJson, ofFields?, Json.Field.required, hkind, hbases, hparams]
  rfl

end Reference

/-! ## Kinds -/

theorem Tag.ofKeyword?_keyword (t : Tag) : ofKeyword? t.keyword = some t := by
  cases t with
  | container t => cases t <;> decide
  | leaf t => cases t <;> decide

theorem TextStyle.ofKeyword?_keyword (t : TextStyle) : ofKeyword? t.keyword = some t := by
  cases t <;> decide

theorem ListStyle.ofKeyword?_keyword (t : ListStyle) : ofKeyword? t.keyword = some t := by
  cases t <;> decide

theorem Json.word?_ofNat (w : UInt64) : (Json.ofNat w.toNat).word? = some w := by
  show (if w.toNat < UInt64.size then some (UInt64.ofNat w.toNat) else none) = some w
  rw [if_pos w.toNat_lt_size, UInt64.ofNat_toNat]

/-- A level fits into a word. -/
theorem HeaderLevel.toNat_ofNat_number (l : HeaderLevel) :
    (UInt64.ofNat l.number).toNat = l.number :=
  UInt64.toNat_ofNat_of_lt' (Nat.lt_of_le_of_lt l.in_range.2 (by decide))

theorem HeaderLevel.ofJson?_ofNat (l : HeaderLevel) : ofJson? (.ofNat l.number) = some l := by
  have hn := l.toNat_ofNat_number
  have hw : (Json.ofNat l.number).word? = some (UInt64.ofNat l.number) := by
    rw [← Json.word?_ofNat, hn]
  rw [ofJson?, hw, Option.bind_some, hn, ofNat, dif_pos l.in_range]
  rfl

namespace Kind

theorem dataMembers_names (k : Kind) : ∀ m ∈ k.dataMembers, m.1 ∉ reserved := by
  have hnull : ∀ (id : Option String) (name : String), name ∉ reserved →
      ∀ m ∈ nullable name id, m.1 ∉ reserved := by
    intro id name hname m hm
    cases id with
    | none => cases hm
    | some s =>
      obtain rfl := List.mem_singleton.mp hm
      exact hname
  have hcall : ∀ (c : Call) (name : String), name ∉ reserved →
      ∀ m ∈ callMembers name c, m.1 ∉ reserved := by
    intro c name hname m hm
    rw [callMembers, List.cons_append, List.mem_cons, List.mem_append, List.mem_singleton] at hm
    rcases hm with rfl | hm | rfl
    · exact hname
    · exact hnull _ _ (by decide) m hm
    · exact (by decide : "inline" ∉ reserved)
  cases k with
  | container c =>
    cases c with
    | header level id =>
      intro m hm
      rcases List.mem_cons.mp hm with rfl | hm
      · exact (by decide : "level" ∉ reserved)
      · exact hnull id "id" (by decide) m hm
    | macroMarker c => exact hcall c "name" (by decide)
    | _ => simp [dataMembers, containerMembers, targetMembers, reserved]
  | leaf l =>
    cases l with
    | macroCall c => exact hcall c "id" (by decide)
    | _ => simp [dataMembers, leafMembers, targetMembers, reserved]

/-- Two lists of members say the same about data. -/
def SameData (ms ns : List (String × Json)) : Prop :=
  ∀ name, name ∉ reserved → Json.field name ms = Json.field name ns

section
variable {ms ns : List (String × Json)} (h : SameData ms ns)
include h

theorem SameData.field (name : String) (hname : name ∉ reserved) :
    (Json.field name ms).SameBut .null .null (Json.field name ns) :=
  h name hname ▸ .same _

/-- Reading the data of a container looks at data members only. -/
theorem containerOfMembers?_congr (t : ContainerTag) :
    containerOfMembers? ms t = containerOfMembers? ns t :=
  containerOfMembers?_sameBut (v := .null) trivial (.refl _) h.field t

theorem leafOfMembers?_congr (t : LeafTag) : leafOfMembers? ms t = leafOfMembers? ns t :=
  leafOfMembers?_sameBut (v := .null) trivial (.refl _) h.field t

end

theorem targetOfMembers?_targetMembers {t : Target} (h : ¬ t.reference.kind.Ambiguous) :
    targetOfMembers? (targetMembers t) = some t := by
  have hr := Reference.ofJson?_toJson h
  simp [targetOfMembers?, targetMembers, Json.field, Json.Field.required, Json.Field.optional, hr,
    Json.bool?]

theorem callOfMembers?_callMembers (c : Call) {name : String}
    (h : name ≠ "content" ∧ name ≠ "inline") :
    callOfMembers? name (callMembers name c) = some c := by
  obtain ⟨n, content, inline⟩ := c
  cases content <;>
    simp [callOfMembers?, callMembers, nullable, Json.field, Json.Field.required,
      Json.Field.optional, Json.bool?, Json.string?, Json.nullableString?, h.1, h.2, h.1.symm,
      h.2.symm]

theorem containerOfMembers?_containerMembers {c : Container} (h : (container c).Portable) :
    containerOfMembers? (containerMembers c) c.tag = some c := by
  cases c with
  | link t =>
    show (targetOfMembers? (targetMembers t)).map _ = _
    rw [targetOfMembers?_targetMembers h]
    rfl
  | macroMarker c =>
    show (callOfMembers? "name" (callMembers "name" c)).map _ = _
    rw [callOfMembers?_callMembers c (by decide)]
    rfl
  | document m | metadata m =>
    simp [Container.tag, containerOfMembers?, containerMembers, Json.field, Json.Field.optional]
  | header level id =>
    have hl := HeaderLevel.ofJson?_ofNat level
    cases id <;>
      simp [Container.tag, containerOfMembers?, containerMembers, nullable, Json.field,
        Json.Field.required, Json.Field.optional, Json.nullableString?, hl]
  | list style =>
    have hs := ListStyle.ofKeyword?_keyword style
    simp [Container.tag, containerOfMembers?, containerMembers, Json.field, Json.Field.required,
      ListStyle.ofJson?, keyword?, hs]
  | format style =>
    have hs := TextStyle.ofKeyword?_keyword style
    simp [Container.tag, containerOfMembers?, containerMembers, Json.field, Json.Field.required,
      TextStyle.ofJson?, keyword?, hs]
  | _ => rfl

theorem leafOfMembers?_leafMembers {l : Leaf} (h : (leaf l).Portable) :
    leafOfMembers? (leafMembers l) l.tag = some l := by
  cases l with
  | image t =>
    show (targetOfMembers? (targetMembers t)).map _ = _
    rw [targetOfMembers?_targetMembers h]
    rfl
  | macroCall c =>
    show (callOfMembers? "id" (callMembers "id" c)).map _ = _
    rw [callOfMembers?_callMembers c (by decide)]
    rfl
  | rawText content dialect =>
    have hd := Dialect.Named.parse_idText h
    simp [Leaf.tag, leafOfMembers?, leafMembers, Json.field, Json.Field.required, Json.string?,
      Dialect.ofJson?, hd, Except.toOption]
  | emptyLines count =>
    have hc := Json.word?_ofNat count
    simp [Leaf.tag, leafOfMembers?, leafMembers, Json.field, Json.Field.required, hc]
  | _ =>
    simp [Leaf.tag, leafOfMembers?, leafMembers, Json.field, Json.Field.required,
      Json.Field.optional, Json.string?, Json.bool?, symbolOfJson?]

/-- A kind is read from its own members, whatever stands behind them under reserved names. -/
theorem ofMembers?_dataMembers {k : Kind} (h : k.Portable) {rest : List (String × Json)}
    (hrest : ∀ m ∈ rest, m.1 = "children" ∨ m.1 = "parameters") :
    ofMembers? (("type", .string k.tag.keyword) :: k.dataMembers ++ rest) = some k := by
  have htype : Json.field "type" (("type", .string k.tag.keyword) :: k.dataMembers ++ rest) =
      .single (.string k.tag.keyword) := by
    have hmissing : Json.field "type" (k.dataMembers ++ rest) = .missing := by
      refine Json.field_eq_missing fun m hm he => ?_
      rcases List.mem_append.mp hm with hm | hm
      · exact dataMembers_names k m hm (he ▸ by decide)
      · rcases hrest m hm with h | h <;> rw [h] at he <;> exact absurd he (by decide)
    rw [List.cons_append, Json.field, if_pos rfl, hmissing]
  have hdata : SameData (("type", .string k.tag.keyword) :: k.dataMembers ++ rest)
      k.dataMembers := by
    intro name hname
    rw [Json.field_append_left, Json.field, if_neg]
    · rintro rfl
      exact hname (by decide)
    · rintro m hm rfl
      rcases hrest m hm with h | h <;> rw [h] at hname <;> exact absurd hname (by decide)
  have htag : (Json.Field.single (.string k.tag.keyword)).required tagOfJson? = some k.tag :=
    Tag.ofKeyword?_keyword k.tag
  rw [ofMembers?, htype, htag]
  cases k with
  | container c =>
    show (containerOfMembers? _ c.tag).map container = _
    rw [containerOfMembers?_congr hdata, dataMembers, containerOfMembers?_containerMembers h]
    rfl
  | leaf l =>
    show (leafOfMembers? _ l.tag).map leaf = _
    rw [leafOfMembers?_congr hdata, dataMembers, leafOfMembers?_leafMembers h]
    rfl

end Kind

/-! ## Blocks -/

namespace Block

/-- The member that holds the children, if there are any. -/
def childrenMembers (cs : List Block) : List (String × Json) :=
  if cs = [] then [] else [("children", .array (listToJson cs))]

theorem toJson_mk (k : Kind) (cs : List Block) (ps : StringMap) :
    toJson ⟨k, cs, ps⟩ = .object (("type", .string k.tag.keyword) :: k.dataMembers ++
      (childrenMembers cs ++ parameterMembers ps)) := by
  cases cs with
  | nil => simp [toJson, childrenMembers]
  | cons c cs => simp [toJson, childrenMembers, listToJson]

theorem childrenMembers_name (cs : List Block) : ∀ m ∈ childrenMembers cs, m.1 = "children" := by
  intro m hm
  unfold childrenMembers at hm
  split at hm
  · cases hm
  · rw [List.mem_singleton.mp hm]

theorem parameterMembers_name (ps : StringMap) :
    ∀ m ∈ parameterMembers ps, m.1 = "parameters" := by
  intro m hm
  unfold parameterMembers at hm
  split at hm
  · cases hm
  · rw [List.mem_singleton.mp hm]

theorem childrenOfMembers?_append {ms ns : List (String × Json)}
    (h : ∀ m ∈ ms, m.1 ≠ "children") : childrenOfMembers? (ms ++ ns) = childrenOfMembers? ns := by
  induction ms with
  | nil => rfl
  | cons m ms ih =>
    obtain ⟨k, v⟩ := m
    rw [List.cons_append, childrenOfMembers?, ih fun n hn => h n (List.mem_cons_of_mem _ hn)]
    cases childrenOfMembers? ns with
    | none => rfl
    | some found => exact if_neg (h (k, v) List.mem_cons_self)

/-- Children are read from the members of a written block if they can be read at all. -/
theorem childrenOfMembers?_written (ps : StringMap) {ms : List (String × Json)} {cs : List Block}
    (hms : ∀ m ∈ ms, m.1 ≠ "children") (hcs : listOfJson? (listToJson cs) = some cs) :
    ∃ found, childrenOfMembers? (ms ++ (childrenMembers cs ++ parameterMembers ps)) = some found ∧
      found.getD [] = cs := by
  have hps : childrenOfMembers? (parameterMembers ps) = some none := by
    rw [← List.append_nil (parameterMembers ps), childrenOfMembers?_append]
    · rfl
    · intro m hm
      rw [parameterMembers_name ps m hm]
      decide
  rw [childrenOfMembers?_append hms, childrenMembers]
  split
  · rename_i he
    exact ⟨none, hps, he.symm⟩
  · refine ⟨some cs, ?_, rfl⟩
    rw [List.singleton_append, childrenOfMembers?, hps]
    simp only
    rw [itemsOfJson?, hcs]
    rfl

theorem parameters_written (ms : List (String × Json)) (ps : StringMap)
    (h : ∀ m ∈ ms, m.1 ≠ "parameters") :
    (Json.field "parameters" (ms ++ parameterMembers ps)).optional ∅ StringMap.ofJson? =
      some ps := by
  rw [Json.field_append_right h, parameterMembers]
  split
  · rename_i hempty
    rw [KeyMap.isEmpty_iff.mp hempty]
    rfl
  · exact StringMap.ofJson?_toJson ps

theorem ofJson?_toJson_mk {k : Kind} {cs : List Block} {ps : StringMap} (hk : k.Portable)
    (hcs : listOfJson? (listToJson cs) = some cs) :
    ofJson? (toJson ⟨k, cs, ps⟩) = some ⟨k, cs, ps⟩ := by
  have hnames : ∀ m ∈ ("type", Json.string k.tag.keyword) :: k.dataMembers,
      m.1 ≠ "children" ∧ m.1 ≠ "parameters" := by
    intro m hm
    rcases List.mem_cons.mp hm with rfl | hm
    · exact ⟨(by decide : "type" ≠ "children"), (by decide : "type" ≠ "parameters")⟩
    · have := Kind.dataMembers_names k m hm
      exact ⟨fun he => this (he ▸ by decide), fun he => this (he ▸ by decide)⟩
  have hkind := Kind.ofMembers?_dataMembers hk
    fun m (hm : m ∈ childrenMembers cs ++ parameterMembers ps) =>
      (List.mem_append.mp hm).imp (childrenMembers_name cs m) (parameterMembers_name ps m)
  obtain ⟨found, hfound, hget⟩ :=
    childrenOfMembers?_written ps (fun m hm => (hnames m hm).1) hcs
  have hparams := parameters_written
    (("type", Json.string k.tag.keyword) :: k.dataMembers ++ childrenMembers cs) ps fun m hm => by
      rcases List.mem_append.mp hm with hm | hm
      · exact (hnames m hm).2
      · rw [childrenMembers_name cs m hm]
        decide
  rw [List.append_assoc] at hparams
  rw [toJson_mk, ofJson?, hkind, hfound, hparams]
  simp only
  rw [hget]

theorem listOfJson?_listToJson {bs : List Block} (h : ∀ b ∈ bs, b.Portable) :
    listOfJson? (listToJson bs) = some bs := by
  induction bs using forestInduction with
  | nil => rfl
  | cons k cs ps bs ihc ihb =>
    obtain ⟨hb, hbs⟩ := List.forall_mem_cons.mp h
    obtain ⟨hk, hcs⟩ := all_mk_iff.mp hb
    rw [listToJson, listOfJson?, ofJson?_toJson_mk hk (ihc hcs), ihb hbs]

/-- Decoding undoes encoding. -/
theorem ofJson?_toJson {b : Block} (h : b.Portable) : ofJson? b.toJson = some b := by
  obtain ⟨k, cs, ps⟩ := b
  obtain ⟨hk, hcs⟩ := all_mk_iff.mp h
  exact ofJson?_toJson_mk hk (listOfJson?_listToJson hcs)

/-! ### Numbers in a written block -/

end Block

namespace Json

theorem exactMembers_iff {ms : List (String × Json)} : ExactMembers ms ↔ ∀ m ∈ ms, m.2.Exact := by
  induction ms with
  | nil => simp [ExactMembers]
  | cons m ms ih => rw [ExactMembers, ih, List.forall_mem_cons]

theorem exactItems_iff {xs : List Json} : ExactItems xs ↔ ∀ x ∈ xs, x.Exact := by
  induction xs with
  | nil => simp [ExactItems]
  | cons x xs ih => rw [ExactItems, ih, List.forall_mem_cons]

end Json

theorem StringMap.exact_toJson (m : StringMap) : (toJson m).Exact := by
  refine Json.exactMembers_iff.mpr fun e he => ?_
  obtain ⟨d, -, rfl⟩ := List.mem_map.mp he
  trivial

theorem Reference.exact_toJson (r : Reference) : r.toJson.Exact := by
  refine Json.exactMembers_iff.mpr fun e he => ?_
  simp only [List.mem_append, List.mem_cons, List.not_mem_nil, or_false] at he
  rcases he with ((rfl | rfl | rfl) | he) | he
  · trivial
  · trivial
  · trivial
  · split at he
    · cases he
    · obtain rfl := List.mem_singleton.mp he
      refine Json.exactItems_iff.mpr fun x hx => ?_
      obtain ⟨b, -, rfl⟩ := List.mem_map.mp hx
      trivial
  · split at he
    · cases he
    · obtain rfl := List.mem_singleton.mp he
      exact StringMap.exact_toJson r.parameters

namespace Kind

/-- What a link or an image shows. -/
def target? : Kind → Option Target
  | .container (.link t) | .leaf (.image t) => some t
  | _ => none

/-- The data of a kind is written as texts, truth values, words, maps and a reference. -/
theorem dataMembers_values {P : Json → Prop} (k : Kind) (string : ∀ s, P (.string s))
    (bool : ∀ b, P (.bool b)) (word : ∀ w : UInt64, P (.ofNat w.toNat))
    (map : ∀ m : StringMap, P m.toJson)
    (reference : ∀ t, k.target? = some t → P t.reference.toJson) :
    ∀ m ∈ k.dataMembers, P m.2 := by
  have hnull : ∀ (id : Option String) (name : String), ∀ m ∈ nullable name id, P m.2 := by
    intro id name m hm
    cases id with
    | none => cases hm
    | some s =>
      obtain rfl := List.mem_singleton.mp hm
      exact string s
  have hcall : ∀ (c : Call) (name : String), ∀ m ∈ callMembers name c, P m.2 := by
    intro c name m hm
    rw [callMembers, List.cons_append, List.mem_cons, List.mem_append, List.mem_singleton] at hm
    rcases hm with rfl | hm | rfl
    · exact string c.name
    · exact hnull _ _ m hm
    · exact bool c.inline
  have htarget : ∀ t, k.target? = some t → ∀ m ∈ targetMembers t, P m.2 := by
    intro t ht m hm
    rw [targetMembers, List.mem_cons, List.mem_singleton] at hm
    rcases hm with rfl | rfl
    · exact reference t ht
    · exact bool t.freeStanding
  cases k with
  | container c =>
    cases c with
    | link t => exact htarget t rfl
    | macroMarker c => exact hcall c "name"
    | document m | metadata m => simp [dataMembers, containerMembers, map]
    | header level id =>
      intro m hm
      rcases List.mem_cons.mp hm with rfl | hm
      · exact level.toNat_ofNat_number ▸ word (UInt64.ofNat level.number)
      · exact hnull id "id" m hm
    | _ => simp [dataMembers, containerMembers, string]
  | leaf l =>
    cases l with
    | image t => exact htarget t rfl
    | macroCall c => exact hcall c "id"
    | _ => simp [dataMembers, leafMembers, string, bool, word]

theorem exact_dataMembers (k : Kind) : ∀ m ∈ k.dataMembers, m.2.Exact :=
  dataMembers_values k (fun _ => trivial) (fun _ => trivial) (fun w => w.toNat_lt_size)
    StringMap.exact_toJson fun t _ => Reference.exact_toJson t.reference

end Kind

namespace Block

/-- The values in a written block: its type, its data, its children and its parameters. -/
theorem members_values {P : Json → Prop} {k : Kind} {cs : List Block} {ps : StringMap}
    (type : P (.string k.tag.keyword)) (data : ∀ m ∈ k.dataMembers, P m.2)
    (children : cs ≠ [] → P (.array (listToJson cs))) (parameters : P (StringMap.toJson ps)) :
    ∀ m ∈ ("type", Json.string k.tag.keyword) :: k.dataMembers ++
      (childrenMembers cs ++ parameterMembers ps), P m.2 := by
  intro m hm
  rcases List.mem_append.mp hm with hm | hm
  · rcases List.mem_cons.mp hm with rfl | hm
    · exact type
    · exact data m hm
  · rcases List.mem_append.mp hm with hm | hm
    · unfold childrenMembers at hm
      split at hm
      · cases hm
      · obtain rfl := List.mem_singleton.mp hm
        exact children ‹_›
    · unfold parameterMembers at hm
      split at hm
      · cases hm
      · obtain rfl := List.mem_singleton.mp hm
        exact parameters

theorem exact_listToJson (bs : List Block) : ∀ x ∈ listToJson bs, x.Exact := by
  induction bs using forestInduction with
  | nil => simp [listToJson]
  | cons k cs ps bs ihc ihb =>
    refine List.forall_mem_cons.mpr ⟨?_, ihb⟩
    rw [toJson_mk]
    exact Json.exactMembers_iff.mpr <| members_values trivial (Kind.exact_dataMembers k)
      (fun _ => Json.exactItems_iff.mpr ihc) (StringMap.exact_toJson ps)

theorem exact_toJson (b : Block) : b.toJson.Exact :=
  exact_listToJson [b] b.toJson List.mem_cons_self

/-! ## Main results -/

/-- Reading a written value is decoding it, unless it is nested too deep. -/
theorem read?_text {j : Json} (hx : j.Exact) :
    read? j.text = if j.depth ≤ 127 then ofJson? j else none := by
  rw [read?, Json.read?_text hx]
  show (if j.depth ≤ 127 then some j else none).bind ofJson? = _
  split <;> rfl

theorem read?_jsonText_eq (b : Block) :
    read? b.jsonText = if b.toJson.depth ≤ 127 then ofJson? b.toJson else none :=
  read?_text (exact_toJson b)

theorem read?_jsonText_of_portable {b : Block} (hp : b.Portable) (hd : b.toJson.depth ≤ 127) :
    read? b.jsonText = some b := by
  rw [read?_jsonText_eq, if_pos hd, ofJson?_toJson hp]

theorem read?_jsonText_of_deep {b : Block} (hd : 128 ≤ b.toJson.depth) :
    read? b.jsonText = none := by
  rw [read?_jsonText_eq, if_neg (by omega)]

/-- **Written trees are read back**, if nothing in them is lost and their arrays and objects are
nested at most 127 deep. No tree whose text is nested deeper is read. -/
theorem read?_jsonText (b : Block) :
    (b.Portable → b.toJson.depth ≤ 127 → read? b.jsonText = some b) ∧
      (128 ≤ b.toJson.depth → read? b.jsonText = none) :=
  ⟨read?_jsonText_of_portable, read?_jsonText_of_deep⟩

/-! ### Trees at the bounds -/

/-- A tree of what is easily lost: a control character, the greatest count, a custom scheme, bases
and parameters of a reference, a child and parameters below a leaf. -/
def intricate : Block :=
  document ((∅ : StringMap).insert "syntax" "json/1.0")
    [link { reference := { kind := .custom "wiki", text := "a\"b", bases := ["", "\x00"]
                           parameters := (∅ : StringMap).insert "q" "\\" } } [space],
      ofLeaf (.rawText "<b>" (.ofParts "xhtml" "1.0")),
      ⟨.leaf (.word "\x00\n"), [ofLeaf (.emptyLines 18446744073709551615)],
        (∅ : StringMap).insert "k" ""⟩]

theorem portable_intricate : intricate.Portable := by
  have hd : (Dialect.ofParts "xhtml" "1.0").Named :=
    ⟨"xhtml/1.0", Dialect.parse_eq_ok_iff.mpr
      ⟨"xhtml", "1.0", by decide, by decide, by decide, rfl⟩⟩
  have hc : ¬ (ResourceKind.custom "wiki").Ambiguous := by
    rintro ⟨k, hk, he⟩
    revert k
    decide
  simp [Portable, intricate, document, ofContainer, link, ofLeaf, space, all_mk_iff, Kind.Portable,
    hd, hc]

/-- Groups around groups. -/
def nested : Nat → Block
  | 0 => group []
  | n + 1 => group [nested n]

theorem depth_nested (n : Nat) : (nested n).toJson.depth = 2 * n + 1 := by
  induction n with
  | zero => decide
  | succ n ih =>
    have h : (nested (n + 1)).toJson = .object [("type", .string "group"),
        ("children", .array [(nested n).toJson])] := by
      show toJson ⟨.container .group, [nested n], ∅⟩ = _
      rw [toJson_mk]
      rfl
    rw [h]
    simp only [Json.depth, Json.depthMembers, Json.depthItems, ih]
    omega

theorem read?_jsonText_bounds :
    (intricate.Portable ∧ intricate.toJson.depth ≤ 127 ∧
      read? intricate.jsonText = some intricate) ∧
    (128 ≤ (nested 64).toJson.depth ∧ read? (nested 64).jsonText = none) := by
  have hd : intricate.toJson.depth ≤ 127 := by decide
  have hn : 128 ≤ (nested 64).toJson.depth := by
    rw [depth_nested]
    decide
  exact ⟨⟨portable_intricate, hd, (read?_jsonText intricate).1 portable_intricate hd⟩,
    hn, (read?_jsonText (nested 64)).2 hn⟩

end Block

end DocTree
