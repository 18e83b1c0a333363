import DocTree.Proofs.Block.Positions
import DocTree.Transform.Icon

/-!
# Icons by leftmost-longest matching

Which runs of siblings give way to icons, said without a table of rules, and what is left when they
have.

**The recursion** (`IconNames.Rewrites`). At each sibling, from the left, the text with the longest
pattern that fits is looked for (`IconNames.Leads`). Its icon takes the place of the siblings that it
covers, and none of those are looked at again; if no text fits, the sibling stays, with its own
children rewritten. One order decides: length of the pattern, then the text. The table has the rules
by length, those of equal length in the order of the texts, so that the first rule that fits is the
one of the text that leads (`IconTable.fitting?_withExtra_eq_some_iff`).

**The loop** (`IconTable.InPlace`). The same result comes of an index that runs over a list of
siblings while runs of that list are replaced by one image each. What is before the index is done,
and the image put at the index is not looked at.

**What is left.** An image stands in no pattern. So a pattern that fits in rewritten siblings fits
before the first image, where the siblings have kept their kinds, and would have been found there
(`IconTable.prefix_of_prefix_withIconsFrom`). Hence no pattern fits anywhere, and nothing is left to do
for another pass.

## Main results

* `IconTable.run_pass_iff`: the pass, the recursion and the loop come to the same.
* `IconTable.settled_run_pass`: after the pass no text fits anywhere, and the pass changes nothing.
-/

namespace DocTree

/-! ## Patterns -/

namespace PlainText

theorem before_ne_nil (c : Char) (ts : List Token) : before c ts ≠ [] := by
  unfold before
  split
  · split <;> exact List.cons_ne_nil _ _
  · split
    · exact List.cons_ne_nil _ _
    · split <;> exact List.cons_ne_nil _ _

theorem kinds_eq_nil_iff {text : String} : kinds text = [] ↔ text = "" := by
  rw [kinds, List.map_eq_nil_iff, ← String.toList_eq_nil_iff]
  cases text.toList with
  | nil => exact ⟨fun _ => rfl, fun _ => rfl⟩
  | cons c cs => exact ⟨fun h => absurd h (before_ne_nil c _), nofun⟩

/-- No text has an image among its blocks. -/
theorem ne_image_of_mem_kinds {text : String} {k : Kind} (hk : k ∈ kinds text) (target : Target) :
    k ≠ .leaf (.image target) := by
  obtain ⟨token, -, rfl⟩ := List.mem_map.mp hk
  cases token <;> exact nofun

end PlainText

open PlainText (kinds)

namespace IconRule

theorem ofText?_eq_some_iff {text icon : String} {r : IconRule} :
    ofText? text icon = some r ↔ text ≠ "" ∧ r = ⟨kinds text, icon⟩ := by
  rw [ofText?, ne_eq, ← PlainText.kinds_eq_nil_iff]
  cases kinds text with
  | nil => exact ⟨nofun, fun h => absurd rfl h.1⟩
  | cons k ks =>
    rw [Option.some.injEq, eq_comm]
    exact ⟨fun h => ⟨List.cons_ne_nil k ks, h⟩, fun h => h.2⟩

theorem fits_iff {r : IconRule} {siblings : List Block} :
    r.fits siblings = true ↔ r.pattern <+: siblings.map (·.kind) :=
  startsWith_iff

end IconRule

namespace IconTable

/-- Every pattern has kinds, none of which is that of an image. -/
def Textual (t : IconTable) : Prop :=
  ∀ r ∈ t, r.pattern ≠ [] ∧ ∀ k ∈ r.pattern, ∀ target, k ≠ .leaf (.image target)

theorem mem_and_fits_of_fitting? {t : IconTable} {siblings : List Block} {r : IconRule}
    (h : t.fitting? siblings = some r) : r ∈ t ∧ r.fits siblings = true :=
  ⟨List.mem_of_find?_eq_some h, List.find?_some (p := fun r : IconRule => r.fits siblings) h⟩

end IconTable

/-! ## The text that leads -/

namespace IconNames

/-- The icon of a text: a name that is given wins over the standard one. -/
def icon? (extra : IconNames) (text : String) : Option String :=
  (extra.get? text).or (standard.get? text)

/-- A text that has an icon fits at the first of some siblings: it is not empty, and its blocks are
of the kinds of the siblings. -/
structure Fits (extra : IconNames) (text icon : String) (siblings : List Block) : Prop where
  named : extra.icon? text = some icon
  nonempty : text ≠ ""
  kinds : kinds text <+: siblings.map (·.kind)

/-- Of the texts that fit, none has a longer pattern, and none with the same pattern is smaller. -/
structure Leads (extra : IconNames) (text icon : String) (siblings : List Block) : Prop
    extends extra.Fits text icon siblings where
  longest : ∀ other icon', extra.Fits other icon' siblings →
    (PlainText.kinds other).length ≤ (PlainText.kinds text).length
  smallest : ∀ other icon', extra.Fits other icon' siblings →
    PlainText.kinds other = PlainText.kinds text → text ≤ other

variable {extra : IconNames} {siblings : List Block} {text icon text' icon' : String}

/-- At most one text leads. -/
theorem Leads.unique (h : extra.Leads text icon siblings) (h' : extra.Leads text' icon' siblings) :
    text = text' ∧ icon = icon' := by
  have hlength : (kinds text).length = (kinds text').length :=
    Nat.le_antisymm (h'.longest text icon h.toFits) (h.longest text' icon' h'.toFits)
  have hkinds : kinds text = kinds text' :=
    (List.prefix_of_prefix_length_le h.kinds h'.kinds hlength.le).eq_of_length hlength
  have htext : text = text' := String.le_antisymm (h.smallest text' icon' h'.toFits hkinds.symm)
    (h'.smallest text icon h.toFits hkinds)
  subst htext
  exact ⟨rfl, Option.some.inj (h.named.symm.trans h'.named)⟩

/-- What becomes of a list of siblings. -/
inductive Rewrites (extra : IconNames) : List Block → List Block → Prop
  | nil : Rewrites extra [] []
  /-- The icon of the text that leads takes the place of the siblings that the text covers. -/
  | icon {text icon : String} {siblings rest : List Block} (h : extra.Leads text icon siblings)
      (hrest : Rewrites extra (siblings.drop (kinds text).length) rest) :
      Rewrites extra siblings
        (.image { reference := .ofKind icon .icon, freeStanding := true } :: rest)
  /-- Where no text fits, a sibling stays, but for its children. -/
  | keep {k : Kind} {cs cs' : List Block} {ps : StringMap} {siblings rest : List Block}
      (h : ∀ text icon, ¬ extra.Fits text icon (⟨k, cs, ps⟩ :: siblings))
      (hchildren : Rewrites extra cs cs') (hrest : Rewrites extra siblings rest) :
      Rewrites extra (⟨k, cs, ps⟩ :: siblings) (⟨k, cs', ps⟩ :: rest)

end IconNames

/-! ## The table of all texts -/

namespace IconTable

variable {extra : IconNames} {siblings : List Block} {r : IconRule}

theorem mem_entries_iff {e : String × String} :
    e ∈ (IconNames.standard.override extra).entries ↔ extra.icon? e.1 = some e.2 := by
  rw [IconNames.icon?, ← KeyMap.get?_override, KeyMap.get?_eq_some_iff]

theorem mem_withExtra_iff : r ∈ withExtra extra ↔
    ∃ text icon, extra.icon? text = some icon ∧ text ≠ "" ∧ r = ⟨kinds text, icon⟩ := by
  rw [withExtra, ofNames, Ranking.mem_ofList, List.mem_filterMap]
  simp only [IconRule.ofText?_eq_some_iff, mem_entries_iff, Prod.exists]

theorem textual_withExtra (extra : IconNames) : (withExtra extra).Textual := by
  intro r hr
  obtain ⟨text, icon, -, htext, rfl⟩ := mem_withExtra_iff.mp hr
  exact ⟨mt PlainText.kinds_eq_nil_iff.mp htext, fun _ => PlainText.ne_image_of_mem_kinds⟩

theorem ofText?_of_fits {text icon : String} (h : extra.Fits text icon siblings) :
    IconRule.ofText? text icon = some ⟨kinds text, icon⟩ :=
  IconRule.ofText?_eq_some_iff.mpr ⟨h.nonempty, rfl⟩

/-- The rules that fit are those of the texts that fit. -/
theorem mem_and_fits_iff : r ∈ withExtra extra ∧ r.fits siblings = true ↔
    ∃ text icon, extra.Fits text icon siblings ∧ r = ⟨kinds text, icon⟩ := by
  rw [mem_withExtra_iff, IconRule.fits_iff]
  constructor
  · rintro ⟨⟨text, icon, hnamed, htext, rfl⟩, hkinds⟩
    exact ⟨text, icon, ⟨hnamed, htext, hkinds⟩, rfl⟩
  · rintro ⟨text, icon, h, rfl⟩
    exact ⟨⟨text, icon, h.named, h.nonempty, rfl⟩, h.kinds⟩

theorem fitting?_withExtra_eq_none_iff :
    (withExtra extra).fitting? siblings = none ↔ ∀ text icon, ¬ extra.Fits text icon siblings := by
  rw [fitting?, List.find?_eq_none]
  constructor
  · intro h text icon hfits
    obtain ⟨hmem, hr⟩ := mem_and_fits_iff.mpr ⟨text, icon, hfits, rfl⟩
    exact h _ hmem hr
  · intro h r hmem hr
    obtain ⟨text, icon, hfits, -⟩ := mem_and_fits_iff.mp ⟨hmem, hr⟩
    exact h text icon hfits

/-- The first rule that fits is that of the text that leads. -/
theorem leads_of_fitting? (h : (withExtra extra).fitting? siblings = some r) :
    ∃ text, extra.Leads text r.icon siblings ∧ r.pattern = kinds text := by
  have hfits := (mem_and_fits_of_fitting? h).2
  obtain ⟨hleast, hfirst⟩ := Ranking.find?_ofList_eq_some _ h
  -- Among the rules of its length, which are in the order of the texts, it is the first that fits.
  rw [List.find?_filter, List.find?_filterMap] at hfirst
  obtain ⟨⟨text, icon⟩, hentry, hrule⟩ := Option.bind_eq_some_iff.mp hfirst
  obtain ⟨htext, rfl⟩ := IconRule.ofText?_eq_some_iff.mp hrule
  have hnamed := mem_entries_iff.mp (List.mem_of_find?_eq_some hentry)
  refine ⟨text, ⟨⟨hnamed, htext, IconRule.fits_iff.mp hfits⟩, ?_, ?_⟩, rfl⟩
  · intro other icon' hother
    have hle := hleast _ (List.mem_filterMap.mpr
      ⟨(other, icon'), mem_entries_iff.mpr hother.named, ofText?_of_fits hother⟩)
      (IconRule.fits_iff.mpr hother.kinds)
    dsimp only at hle
    omega
  · intro other icon' hother hsame
    have hfits' : (IconRule.mk (kinds text) icon').fits siblings = true := hfits
    have hmem : (other, icon') ∈ (IconNames.standard.override extra).entries :=
      mem_entries_iff.mpr hother.named
    refine KeyMap.le_of_find? hentry hmem ?_
    rw [ofText?_of_fits hother, hsame]
    simp [hfits']

theorem fitting?_withExtra_eq_some_iff : (withExtra extra).fitting? siblings = some r ↔
    ∃ text, extra.Leads text r.icon siblings ∧ r.pattern = kinds text := by
  refine ⟨leads_of_fitting?, ?_⟩
  rintro ⟨text, hleads, hpattern⟩
  cases hfitting : (withExtra extra).fitting? siblings with
  | none => exact absurd hleads.toFits (fitting?_withExtra_eq_none_iff.mp hfitting text r.icon)
  | some r' =>
    obtain ⟨text', hleads', hpattern'⟩ := leads_of_fitting? hfitting
    obtain ⟨rfl, hicon⟩ := hleads.unique hleads'
    rcases r with ⟨pattern, icon⟩
    rcases r' with ⟨pattern', icon'⟩
    obtain rfl : pattern = kinds text := hpattern
    obtain rfl : pattern' = kinds text := hpattern'
    obtain rfl : icon = icon' := hicon
    rfl

end IconTable

/-! ## The substitution, step by step -/

/-- All but the children stays as it is. -/
theorem Block.withIcons_eq (t : IconTable) (b : Block) :
    b.withIcons t = { b with children := withIconsFrom t 0 b.children } := by
  cases b
  rw [withIcons]

namespace IconTable

variable {t : IconTable} {siblings : List Block} {r : IconRule}

/-- A rule fits at a sibling. -/
theorem exists_cons_of_fitting? (ht : t.Textual) (h : t.fitting? siblings = some r) :
    ∃ b rest n, siblings = b :: rest ∧ r.pattern.length = n + 1 := by
  obtain ⟨hmem, hfits⟩ := mem_and_fits_of_fitting? h
  obtain ⟨k, ks, hpattern⟩ := List.exists_cons_of_ne_nil (ht r hmem).1
  rw [IconRule.fits_iff, hpattern] at hfits
  cases siblings with
  | nil => exact nomatch List.prefix_nil.mp hfits
  | cons b rest => exact ⟨b, rest, ks.length, rfl, by rw [hpattern, List.length_cons]⟩

theorem withIconsFrom_of_some (ht : t.Textual) (h : t.fitting? siblings = some r) :
    Block.withIconsFrom t 0 siblings =
      r.image :: Block.withIconsFrom t 0 (siblings.drop r.pattern.length) := by
  obtain ⟨b, rest, n, rfl, hlength⟩ := exists_cons_of_fitting? ht h
  rw [Block.withIconsFrom, h]
  dsimp only
  rw [Block.withIconsFrom_eq_drop, hlength, Nat.add_sub_cancel, List.drop_succ_cons]

theorem withIconsFrom_of_none {b : Block} (h : t.fitting? (b :: siblings) = none) :
    Block.withIconsFrom t 0 (b :: siblings) = b.withIcons t :: Block.withIconsFrom t 0 siblings := by
  rw [Block.withIconsFrom, h]

/-- Induction along the substitution: where a rule fits, the siblings after its run come next, and
where none does, the children of the first sibling and the siblings after it. -/
theorem siblingsInduction (ht : t.Textual) {P : List Block → Prop} (nil : P [])
    (icon : ∀ siblings r, t.fitting? siblings = some r → P (siblings.drop r.pattern.length) →
      P siblings)
    (keep : ∀ k cs ps siblings, t.fitting? (⟨k, cs, ps⟩ :: siblings) = none → P cs → P siblings →
      P (⟨k, cs, ps⟩ :: siblings)) (siblings : List Block) : P siblings := by
  suffices ∀ n, P (siblings.drop n) from this 0
  induction siblings using Block.forestInduction with
  | nil =>
    intro n
    rw [List.drop_nil]
    exact nil
  | cons k cs ps siblings ihcs ihrest =>
    intro n
    cases n with
    | succ n => exact ihrest n
    | zero =>
      rw [List.drop_zero]
      cases h : t.fitting? (⟨k, cs, ps⟩ :: siblings) with
      | none => exact keep k cs ps siblings h (ihcs 0) (ihrest 0)
      | some r =>
        refine icon _ r h ?_
        obtain ⟨_, _, n, hsiblings, hlength⟩ := exists_cons_of_fitting? ht h
        rw [hlength, List.drop_succ_cons]
        exact ihrest n

/-! ## The loop -/

/-- What comes of a list of siblings in which runs are replaced in place, from an index on. -/
inductive InPlace (t : IconTable) : (index : Nat) → List Block → List Block → Prop
  | done {index : Nat} {siblings : List Block} (h : siblings.length ≤ index) :
      InPlace t index siblings siblings
  /-- One image is put for a run, and the index moves behind it. -/
  | replace {index : Nat} {siblings out : List Block} {r : IconRule} (h : index < siblings.length)
      (hr : t.fitting? (siblings.drop index) = some r)
      (hrest : InPlace t (index + 1)
        (siblings.take index ++ r.image :: siblings.drop (index + r.pattern.length)) out) :
      InPlace t index siblings out
  /-- The same is done to the children of a sibling that stays. -/
  | descend {index : Nat} {siblings children out : List Block} {b : Block}
      (h : siblings[index]? = some b) (hr : t.fitting? (siblings.drop index) = none)
      (hchildren : InPlace t 0 b.children children)
      (hrest : InPlace t (index + 1) (siblings.set index { b with children }) out) :
      InPlace t index siblings out

theorem splice_at (front rest : List Block) (b : Block) (n : Nat) :
    (front ++ rest).take front.length ++ b :: (front ++ rest).drop (front.length + n) =
      front ++ [b] ++ rest.drop n := by
  rw [List.take_left, List.drop_length_add_append, List.append_cons]

theorem set_at (front rest : List Block) (b b' : Block) :
    (front ++ b :: rest).set front.length b' = front ++ [b'] ++ rest := by
  rw [List.set_append_right _ _ (Nat.le_refl _), Nat.sub_self, List.set_cons_zero, List.append_cons]

theorem getElem?_at (front rest : List Block) : (front ++ rest)[front.length]? = rest.head? := by
  rw [List.getElem?_append_right (Nat.le_refl _), Nat.sub_self, List.head?_eq_getElem?]

theorem length_after (front : List Block) (b : Block) :
    front.length + 1 = (front ++ [b]).length := by
  rw [List.length_append, List.length_singleton]

/-- The loop has done the siblings before its index, and substitutes in those from there on. -/
theorem InPlace.eq_withIconsFrom (ht : t.Textual) {index : Nat} {all out : List Block}
    (h : InPlace t index all out) : ∀ front, all = front ++ siblings → index = front.length →
      out = front ++ Block.withIconsFrom t 0 siblings := by
  induction h generalizing siblings with
  | done h =>
    rintro front rfl rfl
    have hnil : siblings = [] := by
      rw [← List.length_eq_zero_iff]
      rw [List.length_append] at h
      omega
    rw [hnil, Block.withIconsFrom]
  | replace _ hr _ ih =>
    rintro front rfl rfl
    rw [List.drop_left] at hr
    rw [ih _ (splice_at ..) (length_after ..), ← List.append_cons, withIconsFrom_of_some ht hr]
  | descend h hr _ _ ihchildren ih =>
    rintro front rfl rfl
    rw [getElem?_at] at h
    obtain ⟨rest, rfl⟩ := List.head?_eq_some_iff.mp h
    rw [List.drop_left] at hr
    rw [ih _ (set_at ..) (length_after ..), ← List.append_cons, withIconsFrom_of_none hr,
      ihchildren [] rfl rfl, Block.withIcons_eq, List.nil_append]

/-- The loop comes to an end. -/
theorem inPlace_withIconsFrom (ht : t.Textual) (siblings : List Block) : ∀ front : List Block,
    InPlace t front.length (front ++ siblings)
      (front ++ Block.withIconsFrom t 0 siblings) := by
  induction siblings using siblingsInduction ht with
  | nil => exact fun front => .done (by rw [List.append_nil])
  | icon siblings r h ih =>
    intro front
    have hlt : front.length < (front ++ siblings).length := by
      obtain ⟨b, rest, n, rfl, -⟩ := exists_cons_of_fitting? ht h
      rw [List.length_append, List.length_cons]
      omega
    have hrest := ih (front ++ [r.image])
    rw [← length_after, ← splice_at, ← List.append_cons] at hrest
    rw [withIconsFrom_of_some ht h]
    exact .replace hlt (by rwa [List.drop_left]) hrest
  | keep k cs ps siblings h ihcs ihrest =>
    intro front
    have hrest := ihrest (front ++ [Block.withIcons t ⟨k, cs, ps⟩])
    rw [← length_after, ← set_at, ← List.append_cons] at hrest
    rw [withIconsFrom_of_none h]
    exact .descend (getElem?_at ..) (by rwa [List.drop_left]) (ihcs []) hrest

/-- The loop over all siblings comes to the substitution, and to nothing else. -/
theorem inPlace_iff (ht : t.Textual) {out : List Block} :
    InPlace t 0 siblings out ↔ out = Block.withIconsFrom t 0 siblings := by
  constructor
  · exact fun h => h.eq_withIconsFrom ht [] rfl rfl
  · rintro rfl
    exact inPlace_withIconsFrom ht siblings []

end IconTable

/-! ## The recursion -/

namespace IconNames

variable {extra : IconNames} {siblings : List Block}

theorem Rewrites.eq_withIconsFrom {rest : List Block} (h : extra.Rewrites siblings rest) :
    rest = Block.withIconsFrom (IconTable.withExtra extra) 0 siblings := by
  have ht := IconTable.textual_withExtra extra
  induction h with
  | nil => rw [Block.withIconsFrom]
  | @icon text icon siblings _ h _ ih =>
    have hfitting := IconTable.fitting?_withExtra_eq_some_iff (r := ⟨kinds text, icon⟩).mpr
      ⟨text, h, rfl⟩
    rw [IconTable.withIconsFrom_of_some ht hfitting, ih]
    rfl
  | keep h _ _ ihchildren ihrest =>
    rw [IconTable.withIconsFrom_of_none (IconTable.fitting?_withExtra_eq_none_iff.mpr h),
      Block.withIcons_eq, ihchildren, ihrest]

theorem rewrites_withIconsFrom (extra : IconNames) (siblings : List Block) :
    extra.Rewrites siblings (Block.withIconsFrom (IconTable.withExtra extra) 0 siblings) := by
  have ht := IconTable.textual_withExtra extra
  induction siblings using IconTable.siblingsInduction ht with
  | nil =>
    rw [Block.withIconsFrom]
    exact .nil
  | icon siblings r h ih =>
    obtain ⟨text, hleads, hpattern⟩ := IconTable.leads_of_fitting? h
    rw [IconTable.withIconsFrom_of_some ht h]
    rw [hpattern] at ih ⊢
    exact .icon hleads ih
  | keep k cs ps siblings h ihcs ihrest =>
    rw [IconTable.withIconsFrom_of_none h, Block.withIcons_eq]
    exact .keep (IconTable.fitting?_withExtra_eq_none_iff.mp h) ihcs ihrest

theorem rewrites_iff {rest : List Block} : extra.Rewrites siblings rest ↔
    rest = Block.withIconsFrom (IconTable.withExtra extra) 0 siblings := by
  constructor
  · exact Rewrites.eq_withIconsFrom
  · rintro rfl
    exact rewrites_withIconsFrom extra siblings

end IconNames

/-! ## What is left -/

namespace IconTable

variable {t : IconTable} {siblings : List Block}

/-- No pattern fits anywhere among siblings. -/
def Settled (t : IconTable) (siblings : List Block) : Prop :=
  ∀ r ∈ t, ¬ r.pattern <:+: siblings.map (·.kind)

theorem Settled.fitting?_eq_none (h : t.Settled siblings) : t.fitting? siblings = none :=
  List.find?_eq_none.mpr fun r hr hfits => h r hr (IconRule.fits_iff.mp hfits).isInfix

theorem Settled.tail {b : Block} (h : t.Settled (b :: siblings)) : t.Settled siblings :=
  fun r hr hinfix => h r hr (List.infix_cons_iff.mpr (.inr hinfix))

/-- What fits in rewritten siblings fits in the siblings, since it ends before the first image. -/
theorem prefix_of_prefix_withIconsFrom (ht : t.Textual) {ks : List Kind}
    (hks : ∀ k ∈ ks, ∀ target, k ≠ .leaf (.image target))
    (h : ks <+: (Block.withIconsFrom t 0 siblings).map (·.kind)) :
    ks <+: siblings.map (·.kind) := by
  induction ks generalizing siblings with
  | nil => exact List.nil_prefix
  | cons k ks ih =>
    obtain ⟨hk, hks⟩ := List.forall_mem_cons.mp hks
    cases siblings with
    | nil => rwa [Block.withIconsFrom] at h
    | cons b siblings =>
      cases hfitting : t.fitting? (b :: siblings) with
      | some r =>
        rw [withIconsFrom_of_some ht hfitting, List.map_cons, List.cons_prefix_cons] at h
        exact absurd h.1 (hk _)
      | none =>
        rw [withIconsFrom_of_none hfitting, List.map_cons, List.cons_prefix_cons,
          Block.withIcons_eq] at h
        rw [List.map_cons, List.cons_prefix_cons]
        exact ⟨h.1, ih hks h.2⟩

theorem settled_withIconsFrom (ht : t.Textual) (siblings : List Block) :
    t.Settled (Block.withIconsFrom t 0 siblings) := by
  induction siblings using siblingsInduction ht with
  | nil =>
    intro r hr h
    rw [Block.withIconsFrom, List.map_nil, List.infix_nil] at h
    exact (ht r hr).1 h
  | icon siblings r h ih =>
    intro r' hr' hinfix
    rw [withIconsFrom_of_some ht h, List.map_cons, List.infix_cons_iff] at hinfix
    rcases hinfix with hprefix | hinfix
    · obtain ⟨hne, himage⟩ := ht r' hr'
      obtain ⟨k, ks, hpattern⟩ := List.exists_cons_of_ne_nil hne
      rw [hpattern] at hprefix himage
      exact himage k List.mem_cons_self _ (List.cons_prefix_cons.mp hprefix).1
    · exact ih r' hr' hinfix
  | keep k cs ps siblings h _ ih =>
    intro r hr hinfix
    have hwhole := withIconsFrom_of_none h
    rw [hwhole, List.map_cons, List.infix_cons_iff] at hinfix
    rcases hinfix with hprefix | hinfix
    · rw [← List.map_cons, ← hwhole] at hprefix
      have hfits := IconRule.fits_iff.mpr (prefix_of_prefix_withIconsFrom ht (ht r hr).2 hprefix)
      exact List.find?_eq_none.mp h r hr hfits
    · exact ih r hr hinfix

/-- The same holds at every depth. -/
theorem all_settled_withIconsFrom (ht : t.Textual) (siblings : List Block) :
    ∀ b ∈ Block.withIconsFrom t 0 siblings, b.All fun x => t.Settled x.children := by
  induction siblings using siblingsInduction ht with
  | nil =>
    rw [Block.withIconsFrom]
    exact List.forall_mem_nil _
  | icon siblings r h ih =>
    rw [withIconsFrom_of_some ht h]
    refine List.forall_mem_cons.mpr ⟨Block.all_mk_iff.mpr ⟨?_, List.forall_mem_nil _⟩, ih⟩
    exact fun r' hr' hinfix => (ht r' hr').1 (List.infix_nil.mp hinfix)
  | keep k cs ps siblings h ihcs ihrest =>
    rw [withIconsFrom_of_none h, Block.withIcons_eq]
    exact List.forall_mem_cons.mpr
      ⟨Block.all_mk_iff.mpr ⟨settled_withIconsFrom ht cs, ihcs⟩, ihrest⟩

theorem all_settled_withIcons (ht : t.Textual) (tree : Block) :
    (tree.withIcons t).All fun b => t.Settled b.children := by
  rw [Block.withIcons_eq]
  exact Block.all_mk_iff.mpr
    ⟨settled_withIconsFrom ht tree.children, all_settled_withIconsFrom ht tree.children⟩

/-- Where no pattern fits, nothing changes. -/
theorem withIconsFrom_of_settled (h : t.Settled siblings)
    (hbelow : ∀ b ∈ siblings, b.All fun x => t.Settled x.children) :
    Block.withIconsFrom t 0 siblings = siblings := by
  induction siblings using Block.forestInduction with
  | nil => rw [Block.withIconsFrom]
  | cons k cs ps siblings ihcs ihrest =>
    obtain ⟨hfirst, hrest⟩ := List.forall_mem_cons.mp hbelow
    obtain ⟨hcs, hcsBelow⟩ := Block.all_mk_iff.mp hfirst
    rw [withIconsFrom_of_none h.fitting?_eq_none, Block.withIcons_eq, ihcs hcs hcsBelow,
      ihrest h.tail hrest]

theorem withIcons_of_all_settled {tree : Block} (h : tree.All fun b => t.Settled b.children) :
    tree.withIcons t = tree := by
  obtain ⟨k, cs, ps⟩ := tree
  obtain ⟨hchildren, hbelow⟩ := Block.all_mk_iff.mp h
  rw [Block.withIcons_eq, withIconsFrom_of_settled hchildren hbelow]

theorem withIcons_withIcons (ht : t.Textual) (tree : Block) :
    (tree.withIcons t).withIcons t = tree.withIcons t :=
  withIcons_of_all_settled (all_settled_withIcons ht tree)

/-! ## Main results -/

/-- The pass never fails, keeps the kind and the parameters of the root, and makes of its children
what the recursion makes of them. The loop over the children comes to the same. -/
theorem run_pass_iff (extra : IconNames) (ctx : Context) (tree : Block) :
    let t := withExtra extra
    (∀ r : Transformed, t.pass.run ctx tree = r ↔
      r.failure = none ∧ r.tree.kind = tree.kind ∧ r.tree.parameters = tree.parameters ∧
        extra.Rewrites tree.children r.tree.children) ∧
      ∀ out, t.InPlace 0 tree.children out ↔ extra.Rewrites tree.children out := by
  intro t
  refine ⟨fun r => ?_, fun out => ?_⟩
  · rcases r with ⟨⟨k, cs, ps⟩, failure⟩
    show ({ tree := tree.withIcons t } : Transformed) = _ ↔ _
    rw [IconNames.rewrites_iff, Block.withIcons_eq]
    constructor
    · intro h
      cases h
      exact ⟨rfl, rfl, rfl, rfl⟩
    · rintro ⟨rfl, rfl, rfl, rfl⟩
      rfl
  · rw [inPlace_iff (textual_withExtra extra), IconNames.rewrites_iff]

/-- `:))` covers `:)`, and of the two texts with one blank in their blocks the smaller one counts. -/
example :
    let extra : IconNames := .ofList [(":))", "laugh"), ("a b", "one"), ("a  b", "two")]
    (Block.paragraph (Block.ofPlainText "x :)) a b :)")).withIcons (withExtra extra) =
      .paragraph [.word "x", .space, (IconRule.mk [] "laugh").image, .space,
        (IconRule.mk [] "two").image, .space, (IconRule.mk [] "emoticon_smile").image] := by
  decide +kernel

/-- After the pass, no text that has an icon fits in a run of siblings, at any depth, and the pass
has nothing to do any more. -/
theorem settled_run_pass (extra : IconNames) (ctx ctx' : Context) (tree : Block) :
    let once := ((withExtra extra).pass.run ctx tree).tree
    (once.All fun b => ∀ text, (extra.icon? text).isSome → text ≠ "" →
      ¬ kinds text <:+: b.children.map (·.kind)) ∧
      (withExtra extra).pass.run ctx' once = { tree := once } := by
  intro once
  have ht := textual_withExtra extra
  have hsettled : once.All fun b => (withExtra extra).Settled b.children :=
    all_settled_withIcons ht tree
  refine ⟨fun p b hb text hicon htext => ?_, ?_⟩
  · obtain ⟨icon, hicon⟩ := Option.isSome_iff_exists.mp hicon
    exact hsettled p b hb ⟨kinds text, icon⟩ (mem_withExtra_iff.mpr ⟨text, icon, hicon, htext, rfl⟩)
  · exact congrArg (Transformed.mk · none) (withIcons_of_all_settled hsettled)

end IconTable

end DocTree
