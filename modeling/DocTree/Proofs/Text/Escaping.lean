import DocTree.Proofs.Json.Tokens
import DocTree.Text.Escape

/-!
# Escaped text tells the text

Escaping goes character by character (`escape_append`). What it writes is plain, so that nothing in
it is left to escape (`escape_escape`).

**What a group says.** Digits do not go on behind the parentheses that close a group, so that a group
tells its code unit and where it ends (`unitGroup_append_inj`). The first unit of a character tells
whether there is a second one, and together they tell the character (`groups_append_inj`).

**Where a group begins.** Parentheses of the text may stand in front of those of a group. As long as
there are no three of them in a row, the last three before a digit are the group's
(`not_isPlain_of_group`).

Main result: `escape_reversible`.
-/

namespace DocTree.Text

open Json (isDigit_of_mem_digits takeWhile_digits dropWhile_digits noDigit_cons digitsValue_digits)

/-! ## Plain characters -/

theorem isPlain_iff {c : Char} : isPlain c = true ↔ c ≤ '~' := by
  show decide (c.toNat ≤ 126) = true ↔ c.val ≤ 126
  rw [decide_eq_true_iff, UInt32.le_iff_toNat_le]
  rfl

theorem isPlain_of_isDigit {c : Char} (h : c.isDigit = true) : isPlain c = true := by
  rw [Char.isDigit, Bool.and_eq_true, decide_eq_true_iff, decide_eq_true_iff] at h
  exact isPlain_iff.mpr (UInt32.le_trans h.2 (by decide))

theorem isPlain_of_mem_unitGroup {u : Nat} : ∀ c ∈ unitGroup u, isPlain c = true := by
  intro c hc
  rw [unitGroup, Nat.toList_repr, List.mem_append, List.mem_append] at hc
  rcases hc with (hc | hc) | hc
  · obtain rfl : c = '(' := by simpa using hc
    rfl
  · exact isPlain_of_isDigit (isDigit_of_mem_digits c hc)
  · obtain rfl : c = ')' := by simpa using hc
    rfl

theorem isPlain_of_mem_escapeChars {cs : List Char} : ∀ d ∈ escapeChars cs, isPlain d = true := by
  intro d hd
  obtain ⟨c, -, hd⟩ := List.mem_flatMap.mp hd
  unfold escapeChar at hd
  split at hd
  · rename_i hc
    rwa [List.mem_singleton.mp hd]
  · obtain ⟨u, -, hd⟩ := List.mem_flatMap.mp hd
    exact isPlain_of_mem_unitGroup d hd

theorem escape_escape (text : String) : escape (escape text) = escape text := by
  rw [← String.toList_inj, toList_escape, toList_escape,
    escapeChars_of_plain isPlain_of_mem_escapeChars]

/-! ## Groups -/

theorem unitGroup_append (u : Nat) (rest : List Char) :
    unitGroup u ++ rest =
      '(' :: '(' :: '(' :: (Nat.toDigits 10 u ++ ')' :: ')' :: ')' :: rest) := by
  rw [unitGroup, Nat.toList_repr, List.append_assoc, List.append_assoc]
  rfl

/-- A group tells its unit and where it ends. -/
theorem unitGroup_append_inj {u v : Nat} {x y : List Char}
    (h : unitGroup u ++ x = unitGroup v ++ y) : u = v ∧ x = y := by
  rw [unitGroup_append, unitGroup_append, List.cons_inj_right, List.cons_inj_right,
    List.cons_inj_right] at h
  have hclose : ∀ rest, Json.NoDigit (')' :: rest) := noDigit_cons (by decide)
  have htake := congrArg (List.takeWhile Char.isDigit) h
  have hdrop := congrArg (List.dropWhile Char.isDigit) h
  rw [takeWhile_digits isDigit_of_mem_digits (hclose _),
    takeWhile_digits isDigit_of_mem_digits (hclose _)] at htake
  rw [dropWhile_digits isDigit_of_mem_digits (hclose _),
    dropWhile_digits isDigit_of_mem_digits (hclose _), List.cons_inj_right, List.cons_inj_right,
    List.cons_inj_right] at hdrop
  have hvalue := congrArg digitsValue htake
  rw [digitsValue_digits, digitsValue_digits] at hvalue
  exact ⟨hvalue, hdrop⟩

/-- The groups of a character. -/
def groups (c : Char) : List Char := (utf16Units c).flatMap unitGroup

theorem groups_append_of_lt {c : Char} (h : c.toNat < 0x10000) (x : List Char) :
    groups c ++ x = unitGroup c.toNat ++ x := by
  rw [groups, utf16Units, if_pos h, List.flatMap_singleton]

theorem groups_append_of_not_lt {c : Char} (h : ¬ c.toNat < 0x10000) (x : List Char) :
    groups c ++ x = unitGroup (0xD800 + (c.toNat - 0x10000) / 0x400) ++
      (unitGroup (0xDC00 + (c.toNat - 0x10000) % 0x400) ++ x) := by
  rw [groups, utf16Units, if_neg h, List.flatMap_cons, List.flatMap_singleton, List.append_assoc]

/-- No character of the basic plane has the first unit of one that lies beyond it. -/
theorem not_groups_eq {c d : Char} (hc : c.toNat < 0x10000) (hd : ¬ d.toNat < 0x10000)
    {x y : List Char} : groups c ++ x ≠ groups d ++ y := by
  intro h
  rw [groups_append_of_lt hc, groups_append_of_not_lt hd] at h
  have hunit := (unitGroup_append_inj h).1
  have hvalid : c.toNat < 0xD800 ∨ 0xDFFF < c.toNat ∧ c.toNat < 0x110000 := c.valid
  have hvalid' : d.toNat < 0xD800 ∨ 0xDFFF < d.toNat ∧ d.toNat < 0x110000 := d.valid
  omega

/-- The groups of a character tell it and where they end. -/
theorem groups_append_inj {c d : Char} {x y : List Char} (h : groups c ++ x = groups d ++ y) :
    c = d ∧ x = y := by
  suffices hnat : c.toNat = d.toNat ∧ x = y from
    ⟨Char.ext (UInt32.toNat_inj.mp hnat.1), hnat.2⟩
  by_cases hc : c.toNat < 0x10000 <;> by_cases hd : d.toNat < 0x10000
  · rw [groups_append_of_lt hc, groups_append_of_lt hd] at h
    exact unitGroup_append_inj h
  · exact absurd h (not_groups_eq hc hd)
  · exact absurd h.symm (not_groups_eq hd hc)
  · rw [groups_append_of_not_lt hc, groups_append_of_not_lt hd] at h
    obtain ⟨hhigh, h⟩ := unitGroup_append_inj h
    obtain ⟨hlow, h⟩ := unitGroup_append_inj h
    exact ⟨by omega, h⟩

/-- A group begins with three parentheses and a digit. -/
theorem exists_groups_eq (c : Char) :
    ∃ d ds, d.isDigit = true ∧ groups c = '(' :: '(' :: '(' :: d :: ds := by
  obtain ⟨u, us, hus⟩ : ∃ u us, utf16Units c = u :: us := by
    unfold utf16Units
    split
    · exact ⟨_, _, rfl⟩
    · exact ⟨_, _, rfl⟩
  obtain ⟨d, ds, hds⟩ := List.exists_cons_of_ne_nil (Nat.toDigits_ne_nil (n := u) (b := 10))
  have hd : d.isDigit = true := isDigit_of_mem_digits d (hds ▸ List.mem_cons_self)
  refine ⟨d, ds ++ ')' :: ')' :: ')' :: us.flatMap unitGroup, hd, ?_⟩
  rw [groups, hus, List.flatMap_cons, unitGroup_append, hds]
  rfl

/-! ## Parentheses of the text -/

theorem escapeChars_cons_of_not_isPlain {c : Char} (h : ¬ isPlain c = true) (cs : List Char) :
    escapeChars (c :: cs) = groups c ++ escapeChars cs := by
  rw [escapeChars, List.flatMap_cons, escapeChar, if_neg h]
  rfl

/-- A parenthesis with no two behind it is one of the text. -/
theorem eq_cons_of_escapeChars {cs rest : List Char} (h : escapeChars cs = '(' :: rest)
    (hrest : ¬ ['(', '('] <+: rest) : ∃ cs', cs = '(' :: cs' ∧ escapeChars cs' = rest := by
  cases cs with
  | nil => cases h
  | cons c cs =>
    by_cases hc : isPlain c = true
    · rw [escapeChars_cons_of_isPlain hc] at h
      obtain ⟨rfl, hcs⟩ := List.cons.inj h
      exact ⟨cs, rfl, hcs⟩
    · rw [escapeChars_cons_of_not_isPlain hc] at h
      obtain ⟨d, ds, -, hgroups⟩ := exists_groups_eq c
      rw [hgroups] at h
      obtain ⟨-, rfl⟩ := List.cons.inj h
      exact absurd ⟨d :: ds ++ escapeChars cs, rfl⟩ hrest

/-- Where a text without three parentheses in a row begins with a group when it is escaped, its first
character is one that has groups. -/
theorem not_isPlain_of_group {c d : Char} {cs ds : List Char} (hd : d.isDigit = true)
    (h : escapeChars (c :: cs) = '(' :: '(' :: '(' :: d :: ds)
    (hrow : ¬ ['(', '(', '('] <:+: c :: cs) : ¬ isPlain c = true := by
  have hne : d ≠ '(' := by
    rintro rfl
    exact absurd hd (by decide)
  intro hc
  rw [escapeChars_cons_of_isPlain hc] at h
  obtain ⟨rfl, hsecond⟩ := List.cons.inj h
  obtain ⟨cs, rfl, hthird⟩ := eq_cons_of_escapeChars hsecond fun hpre =>
    hne (List.cons_prefix_cons.mp (List.cons_prefix_cons.mp hpre).2).1.symm
  obtain ⟨cs, rfl, -⟩ := eq_cons_of_escapeChars hthird fun hpre =>
    hne (List.cons_prefix_cons.mp hpre).1.symm
  exact hrow ⟨[], cs, rfl⟩

theorem escapeChars_cons_ne_nil (c : Char) (cs : List Char) : escapeChars (c :: cs) ≠ [] := by
  by_cases hc : isPlain c = true
  · rw [escapeChars_cons_of_isPlain hc]
    exact List.cons_ne_nil _ _
  · obtain ⟨d, ds, -, hgroups⟩ := exists_groups_eq c
    rw [escapeChars_cons_of_not_isPlain hc, hgroups]
    exact List.cons_ne_nil _ _

/-- A text that begins with a plain character is not escaped like one that begins with another. -/
theorem escapeChars_ne {c d : Char} {cs ds : List Char} (hrow : ¬ ['(', '(', '('] <:+: c :: cs)
    (hc : isPlain c = true) (hd : ¬ isPlain d = true) :
    escapeChars (c :: cs) ≠ escapeChars (d :: ds) := by
  intro h
  obtain ⟨e, es, he, hgroups⟩ := exists_groups_eq d
  rw [escapeChars_cons_of_not_isPlain hd, hgroups] at h
  exact not_isPlain_of_group he h hrow hc

/-- Escaped texts tell the texts, if these have no three parentheses in a row. -/
theorem escapeChars_inj {as bs : List Char} (ha : ¬ ['(', '(', '('] <:+: as)
    (hb : ¬ ['(', '(', '('] <:+: bs) (h : escapeChars as = escapeChars bs) : as = bs := by
  have hrow : ∀ {c : Char} {cs : List Char}, ¬ ['(', '(', '('] <:+: c :: cs →
      ¬ ['(', '(', '('] <:+: cs :=
    fun hne hcs => hne (hcs.trans (List.suffix_cons _ _).isInfix)
  induction as generalizing bs with
  | nil =>
    cases bs with
    | nil => rfl
    | cons d ds => exact absurd h.symm (escapeChars_cons_ne_nil d ds)
  | cons c cs ih =>
    cases bs with
    | nil => exact absurd h (escapeChars_cons_ne_nil c cs)
    | cons d ds =>
      by_cases hc : isPlain c = true <;> by_cases hd : isPlain d = true
      · rw [escapeChars_cons_of_isPlain hc, escapeChars_cons_of_isPlain hd] at h
        obtain ⟨rfl, hcs⟩ := List.cons.inj h
        rw [ih (hrow ha) (hrow hb) hcs]
      · exact absurd h (escapeChars_ne ha hc hd)
      · exact absurd h.symm (escapeChars_ne hb hd hc)
      · rw [escapeChars_cons_of_not_isPlain hc, escapeChars_cons_of_not_isPlain hd] at h
        obtain ⟨rfl, hcs⟩ := groups_append_inj h
        rw [ih (hrow ha) (hrow hb) hcs]

/-! ## Main result -/

/-- **Escaping is a homomorphism into plain text that can be reversed.** A text that has nothing to
escape is given back as it is, which is what character by character it would be. The result is plain,
so that it is its own escaped text. Of texts without three opening parentheses in a row no two have
the same one. -/
theorem escape_reversible (a b : String) :
    escape (a ++ b) = escape a ++ escape b ∧
      escape a = String.ofList (a.toList.flatMap escapeChar) ∧
      (∀ c ∈ (escape a).toList, c ≤ '~') ∧
      escape (escape a) = escape a ∧
      (¬ ['(', '(', '('] <:+: a.toList → ¬ ['(', '(', '('] <:+: b.toList →
        (escape a = escape b ↔ a = b)) := by
  refine ⟨escape_append a b, ?_, ?_, escape_escape a, fun ha hb => ⟨fun h => ?_, congrArg escape⟩⟩
  · rw [← String.toList_inj, toList_escape, String.toList_ofList]
    rfl
  · intro c hc
    rw [toList_escape] at hc
    exact isPlain_iff.mp (isPlain_of_mem_escapeChars c hc)
  · have hchars := congrArg String.toList h
    rw [toList_escape, toList_escape] at hchars
    exact String.toList_inj.mp (escapeChars_inj ha hb hchars)

/-- Parentheses around a character beyond the basic plane, in front of its groups and behind. -/
theorem escape_reversible_parentheses :
    ¬ ['(', '(', '('] <:+: "((😀".toList ∧ ¬ ['(', '(', '('] <:+: "(😀(".toList ∧
      escape "((😀" = "(((((55357)))(((56832)))" ∧ escape "((😀" ≠ escape "(😀(" := by
  have hfront : ¬ ['(', '(', '('] <:+: "((😀".toList := by decide
  have hbehind : ¬ ['(', '(', '('] <:+: "(😀(".toList := by decide
  have htell := (escape_reversible "((😀" "(😀(").2.2.2.2 hfront hbehind
  exact ⟨hfront, hbehind, by decide +kernel, fun h => absurd (htell.mp h) (by decide)⟩

-- A text may spell out the group of a character; that is what the condition excludes.
example : escape "é" = escape "(((233)))" := by decide +kernel

end DocTree.Text
