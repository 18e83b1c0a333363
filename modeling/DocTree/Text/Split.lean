/-!
# Cutting text at a separator

`splitFirst` cuts at the first occurrence of a character, `splitLast` at the last one; neither loses
text. `replaceAll` exchanges the occurrences of a pattern, found from left to right without overlap.
-/

namespace DocTree.Text

/-! ## First occurrence -/

def splitFirst (sep : Char) : List Char → Option (List Char × List Char)
  | [] => none
  | c :: cs => if c = sep then some ([], cs) else (splitFirst sep cs).map fun p => (c :: p.1, p.2)

theorem splitFirst_eq_some_iff {sep : Char} {cs a b : List Char} :
    splitFirst sep cs = some (a, b) ↔ cs = a ++ sep :: b ∧ sep ∉ a := by
  induction cs generalizing a with
  | nil => simp [splitFirst]
  | cons c cs ih =>
    by_cases hc : c = sep
    · subst hc
      cases a <;> simp [splitFirst, eq_comm]
      rintro rfl; simp
    · simp only [splitFirst, hc, if_false, Option.map_eq_some_iff, Prod.exists, Prod.mk.injEq]
      constructor
      · rintro ⟨x, y, hxy, rfl, rfl⟩
        obtain ⟨rfl, hx⟩ := ih.mp hxy
        exact ⟨rfl, by simp [Ne.symm hc, hx]⟩
      · rintro ⟨h, hn⟩
        cases a with
        | nil => simp_all
        | cons x xs =>
          simp only [List.cons_append, List.cons.injEq] at h
          exact ⟨xs, b, ih.mpr ⟨h.2, fun hm => hn (List.mem_cons_of_mem _ hm)⟩, by rw [h.1], rfl⟩

theorem splitFirst_eq_none_iff {sep : Char} {cs : List Char} :
    splitFirst sep cs = none ↔ sep ∉ cs := by
  induction cs with
  | nil => simp [splitFirst]
  | cons c cs ih =>
    by_cases hc : c = sep
    · simp [splitFirst, hc]
    · simp [splitFirst, hc, ih, Ne.symm hc]

/-! ## Last occurrence -/

def splitLast (sep : Char) : List Char → Option (List Char × List Char)
  | [] => none
  | c :: cs =>
    match splitLast sep cs with
    | some (a, b) => some (c :: a, b)
    | none => if c = sep then some ([], cs) else none

theorem splitLast_eq_none_iff {sep : Char} {cs : List Char} :
    splitLast sep cs = none ↔ sep ∉ cs := by
  induction cs with
  | nil => simp [splitLast]
  | cons c cs ih =>
    unfold splitLast
    cases h : splitLast sep cs with
    | some p => simp [h] at ih; simp [ih]
    | none =>
      have hn := ih.mp h
      by_cases hc : c = sep
      · simp [hc]
      · simp [hc, hn, Ne.symm hc]

theorem splitLast_eq_some_iff {sep : Char} {cs a b : List Char} :
    splitLast sep cs = some (a, b) ↔ cs = a ++ sep :: b ∧ sep ∉ b := by
  induction cs generalizing a b with
  | nil => simp [splitLast]
  | cons c cs ih =>
    unfold splitLast
    cases h : splitLast sep cs with
    | some p =>
      obtain ⟨x, y⟩ := p
      obtain ⟨rfl, hy⟩ := ih.mp h
      cases a with
      | nil => simp; rintro _ rfl; simp
      | cons z zs =>
        have hz := @ih zs
        rw [h] at hz
        simp only [Option.some.injEq, Prod.mk.injEq, List.cons_append, List.cons.injEq] at hz ⊢
        grind
    | none =>
      have hn := splitLast_eq_none_iff.mp h
      by_cases hc : c = sep
      · subst hc
        cases a with
        | nil => simp; rintro rfl; exact hn
        | cons z zs => simp; rintro _ rfl; simp at hn
      · cases a <;> simp [hc]
        rintro _ rfl; simp at hn

/-! ## Replacement -/

/-- Exchange occurrences of a pattern that begin after the next `skip` characters, which belong to
an occurrence already exchanged. -/
def replaceFrom (pattern text : List Char) : Nat → List Char → List Char
  | _, [] => []
  | skip + 1, _ :: cs => replaceFrom pattern text skip cs
  | 0, c :: cs =>
    if pattern.isPrefixOf (c :: cs) then text ++ replaceFrom pattern text (pattern.length - 1) cs
    else c :: replaceFrom pattern text 0 cs

/-- Put `text` for every occurrence of a pattern that is not empty. -/
def replaceAll (pattern text cs : List Char) : List Char := replaceFrom pattern text 0 cs

end DocTree.Text
