import DocTree.Proofs.Json.Tokens
import DocTree.Proofs.Json.Unbounded

/-!
# Written JSON is read back

The reader takes back what the writer puts, as long as the value is not nested deeper than there is
room for (`readValue_put`). With less room it refuses: what is read is never nested deeper than the
room, and more room does not change what is read (`readWithin_eq_some`).

The reader's steps are bounded by twice the length of the text; every recursive call leaves a text
that is shorter, or goes from a list of items to its first one.

Main result: `readWithin_put`.
-/

namespace DocTree.Json

/-! ## Exact values -/

mutual
/-- All numbers in a value are kept exactly. -/
def Exact : Json → Prop
  | number n => n.Exact
  | array xs => ExactItems xs
  | object ms => ExactMembers ms
  | _ => True
def ExactItems : List Json → Prop
  | [] => True
  | x :: xs => x.Exact ∧ ExactItems xs
def ExactMembers : List (String × Json) → Prop
  | [] => True
  | (_, v) :: ms => v.Exact ∧ ExactMembers ms
end

/-! ## The front of a written value -/

theorem putNumber_eq_cons (n : JsonNumber) (rest : List Char) :
    ∃ c cs, putNumber n rest = c :: cs ∧ (c.isDigit = true ∨ c = '-') := by
  have front : ∀ (n : Nat) (rest : List Char),
      ∃ c cs, Nat.toDigits 10 n ++ rest = c :: cs ∧ c.isDigit = true := by
    intro n rest
    obtain ⟨d, ds, hds⟩ := List.exists_cons_of_ne_nil (Nat.toDigits_ne_nil (n := n) (b := 10))
    refine ⟨d, ds ++ rest, by rw [hds, List.cons_append], ?_⟩
    exact isDigit_of_mem_digits (n := n) d (by rw [hds]; exact List.mem_cons_self)
  cases n with
  | natural n =>
    obtain ⟨c, cs, h, hc⟩ := front n rest
    exact ⟨c, cs, by rw [← h, putNumber, putNat, Nat.toList_repr], Or.inl hc⟩
  | decimal negative digits exponent =>
    rw [putNumber_decimal]
    cases negative with
    | true => exact ⟨'-', _, rfl, Or.inr rfl⟩
    | false =>
      obtain ⟨c, cs, h, hc⟩ := front digits ('e' :: exponentText exponent ++ rest)
      exact ⟨c, cs, by rw [← h, List.append_assoc]; rfl, Or.inl hc⟩

theorem isSpace_of_number {c : Char} (h : c.isDigit = true ∨ c = '-') : isSpace c = false := by
  rcases h with h | rfl
  · rw [Bool.eq_false_iff]
    intro hs
    simp only [isSpace, Bool.or_eq_true, decide_eq_true_eq] at hs
    rcases hs with ((rfl | rfl) | rfl) | rfl <;> exact absurd h (by decide)
  · decide

/-- A written value begins neither with a blank nor with the end of an array. -/
theorem put_eq_cons (j : Json) (rest : List Char) :
    ∃ c cs, j.put rest = c :: cs ∧ isSpace c = false ∧ c ≠ ']' := by
  cases j with
  | null => exact ⟨_, _, rfl, by decide, by decide⟩
  | bool b => cases b <;> exact ⟨_, _, rfl, by decide, by decide⟩
  | number n =>
    obtain ⟨c, cs, h, hc⟩ := putNumber_eq_cons n rest
    refine ⟨c, cs, h, isSpace_of_number hc, ?_⟩
    rintro rfl
    rcases hc with hc | hc <;> exact absurd hc (by decide)
  | string s => exact ⟨_, _, rfl, by decide, by decide⟩
  | array xs => exact ⟨_, _, rfl, by decide, by decide⟩
  | object ms => exact ⟨_, _, rfl, by decide, by decide⟩

theorem skipSpace_cons {c : Char} (h : isSpace c = false) (cs : List Char) :
    skipSpace (c :: cs) = c :: cs := List.dropWhile_cons_of_neg (by simp [h])

theorem putMoreItems_cons (x : Json) (xs : List Json) (rest : List Char) :
    putMoreItems (x :: xs) rest = ',' :: putItems (x :: xs) rest := rfl

theorem putMoreMembers_cons (m : String × Json) (ms : List (String × Json)) (rest : List Char) :
    putMoreMembers (m :: ms) rest = ',' :: putMembers (m :: ms) rest := rfl

/-! ## Lengths -/

theorem length_putMoreItems_cons (x : Json) (xs : List Json) (rest : List Char) :
    (putMoreItems (x :: xs) rest).length = (putItems (x :: xs) rest).length + 1 := rfl

theorem length_putMoreMembers_cons (m : String × Json) (ms : List (String × Json))
    (rest : List Char) :
    (putMoreMembers (m :: ms) rest).length = (putMembers (m :: ms) rest).length + 1 := rfl

theorem length_putString (s : String) (rest : List Char) :
    s.toList.length + rest.length + 2 ≤ (putString s rest).length := by
  have := length_putChars s.toList rest
  rw [putString_eq, List.length_cons]
  omega

theorem length_putNumber (n : JsonNumber) (rest : List Char) :
    rest.length < (putNumber n rest).length := by
  have hpos : ∀ n : Nat, 0 < (Nat.toDigits 10 n).length := fun n => Nat.length_toDigits_pos
  cases n with
  | natural n =>
    have := hpos n
    rw [putNumber, putNat, Nat.toList_repr, List.length_append]
    omega
  | decimal negative digits exponent =>
    have := hpos digits
    rw [putNumber_decimal]
    simp only [List.length_append, List.length_cons]
    omega

mutual
theorem length_put : ∀ (j : Json) (rest : List Char), rest.length < (j.put rest).length
  | null, rest => by simp [put]; omega
  | bool true, rest => by simp [put]; omega
  | bool false, rest => by simp [put]; omega
  | number n, rest => length_putNumber n rest
  | string s, rest => by
    have := length_putString s rest
    rw [put]
    omega
  | array xs, rest => by
    have := length_putItems xs (']' :: rest)
    simp only [put, List.length_cons] at this ⊢
    omega
  | object ms, rest => by
    have := length_putMembers ms ('}' :: rest)
    simp only [put, List.length_cons] at this ⊢
    omega
theorem length_putItems : ∀ (xs : List Json) (rest : List Char),
    rest.length ≤ (putItems xs rest).length
  | [], _ => Nat.le_refl _
  | [x], rest => Nat.le_of_lt (length_put x rest)
  | x :: y :: ys, rest => by
    have := length_put x (putMoreItems (y :: ys) rest)
    have := length_putItems (y :: ys) rest
    rw [length_putMoreItems_cons] at *
    rw [putItems]
    omega
theorem length_putMembers : ∀ (ms : List (String × Json)) (rest : List Char),
    rest.length ≤ (putMembers ms rest).length
  | [], _ => Nat.le_refl _
  | [(k, v)], rest => by
    have := length_put v rest
    have := length_putString k (':' :: v.put rest)
    simp only [putMembers, putMoreMembers, List.length_cons] at this ⊢
    omega
  | (k, v) :: m :: ms, rest => by
    have := length_put v (putMoreMembers (m :: ms) rest)
    have := length_putMembers (m :: ms) rest
    have := length_putString k (':' :: v.put (putMoreMembers (m :: ms) rest))
    rw [length_putMoreMembers_cons] at *
    rw [List.length_cons] at this
    rw [putMembers]
    omega
end

/-! ## What the reader does at the front of a value -/

section
variable (fuel room : Nat) (cs : List Char)

theorem readValue_quote :
    readValue (fuel + 1) room ('"' :: cs) =
      (readChars fuel cs).map fun p => (.string (String.ofList p.1), p.2) := rfl

theorem readValue_bracket {c : Char} (hs : isSpace c = false) (hc : c ≠ ']') :
    readValue (fuel + 1) (room + 1) ('[' :: c :: cs) =
      (readItems fuel room (c :: cs)).map fun p => (.array p.1, p.2) := by
  have h : skipSpace ('[' :: c :: cs) = '[' :: c :: cs := skipSpace_cons (by decide) _
  rw [readValue, h]
  simp only
  rw [skipSpace_cons hs]
  split
  · rename_i heq
    exact absurd (List.cons.inj heq).1 hc
  · rfl

theorem readValue_brace :
    readValue (fuel + 1) (room + 1) ('{' :: '"' :: cs) =
      (readMembers fuel room ('"' :: cs)).map fun p => (.object p.1, p.2) := rfl

theorem readValue_number {c : Char} (h : c.isDigit = true ∨ c = '-') :
    readValue (fuel + 1) room (c :: cs) =
      (readNumber (c :: cs)).map fun p => (.number p.1, p.2) := by
  have hne : ∀ d : Char, d.isDigit = false → d ≠ '-' → c ≠ d := by
    rintro d hd hd' rfl
    rcases h with h | h
    · rw [hd] at h
      exact absurd h (by decide)
    · exact hd' h
  rw [readValue, skipSpace_cons (isSpace_of_number h)]
  split
  case h_8 => rfl
  case h_1 heq => cases heq
  all_goals
    rename_i heq
    exact absurd (List.cons.inj heq).1 (hne _ (by decide) (by decide))

theorem readItems_of_value {x : Json} {rest : List Char} {d : Char} (hd : isSpace d = false)
    (h : readValue fuel room cs = some (x, d :: rest)) :
    readItems (fuel + 1) room cs =
      if d = ']' then some ([x], rest)
      else if d = ',' then (readItems fuel room rest).map fun p => (x :: p.1, p.2)
      else none := by
  rw [readItems, h]
  simp only
  rw [skipSpace_cons hd]
  split
  · rename_i heq
    obtain ⟨rfl, rfl⟩ := List.cons.inj heq
    rfl
  · rename_i heq
    obtain ⟨rfl, rfl⟩ := List.cons.inj heq
    rfl
  · rename_i hb hc
    rw [if_neg (fun h => hb rest (by rw [h])), if_neg (fun h => hc rest (by rw [h]))]

theorem readMembers_of_value {k : String} {v : Json} {more rest : List Char} {d : Char}
    (hd : isSpace d = false) (hk : readChars fuel cs = some (k.toList, ':' :: more))
    (h : readValue fuel room more = some (v, d :: rest)) :
    readMembers (fuel + 1) room ('"' :: cs) =
      if d = '}' then some ([(k, v)], rest)
      else if d = ',' then (readMembers fuel room rest).map fun p => ((k, v) :: p.1, p.2)
      else none := by
  rw [readMembers, skipSpace_cons (by decide)]
  simp only
  rw [hk]
  simp only
  rw [skipSpace_cons (by decide)]
  simp only
  rw [h]
  simp only [String.ofList_toList]
  rw [skipSpace_cons hd]
  split
  · rename_i heq
    obtain ⟨rfl, rfl⟩ := List.cons.inj heq
    rfl
  · rename_i heq
    obtain ⟨rfl, rfl⟩ := List.cons.inj heq
    rfl
  · rename_i hb hc
    rw [if_neg (fun h => hb rest (by rw [h])), if_neg (fun h => hc rest (by rw [h]))]

end

/-! ## Reading back -/

mutual
/-- A written value in front is taken, and nothing more. -/
theorem readValue_put : ∀ (j : Json) (fuel room : Nat) (rest : List Char), j.Exact →
    j.depth ≤ room → 2 * (j.put rest).length ≤ fuel + 1 → Delimited rest →
    readValue (fuel + 1) room (j.put rest) = some (j, rest)
  | null, _, _, _, _, _, _, _ => rfl
  | bool true, _, _, _, _, _, _, _ => rfl
  | bool false, _, _, _, _, _, _, _ => rfl
  | number n, fuel, room, rest, hx, _, _, hr => by
    obtain ⟨c, cs, h, hc⟩ := putNumber_eq_cons n rest
    rw [put, h, readValue_number fuel room cs hc, ← h, readNumber_putNumber hx hr]
    rfl
  | string s, fuel, room, rest, _, _, hf, _ => by
    have := length_putString s rest
    rw [put] at hf
    rw [put, putString_eq, readValue_quote, readChars_putChars (by omega)]
    simp
  | array xs, fuel, room, rest, hx, hd, hf, _ => by
    obtain ⟨room, rfl⟩ : ∃ r, room = r + 1 := ⟨room - 1, by rw [depth] at hd; omega⟩
    match xs with
    | [] => rfl
    | x :: xs =>
      obtain ⟨c, cs, h, hs, hc⟩ := put_eq_cons x (putMoreItems xs (']' :: rest))
      have ih := readItems_put (x :: xs) fuel room rest (by simp) hx (by rw [depth] at hd; omega)
        (by rw [put, List.length_cons] at hf; omega)
      rw [putItems] at ih
      rw [put, putItems, h, readValue_bracket fuel room cs hs hc, ← h, ih]
      rfl
  | object ms, fuel, room, rest, hx, hd, hf, _ => by
    obtain ⟨room, rfl⟩ : ∃ r, room = r + 1 := ⟨room - 1, by rw [depth] at hd; omega⟩
    match ms with
    | [] => rfl
    | (k, v) :: ms =>
      have ih := readMembers_put ((k, v) :: ms) fuel room rest (by simp) hx
        (by rw [depth] at hd; omega) (by rw [put, List.length_cons] at hf; omega)
      rw [putMembers, putString_eq] at ih
      rw [put, putMembers, putString_eq, readValue_brace, ih]
      rfl
/-- The items of an array up to and with its end. -/
theorem readItems_put : ∀ (xs : List Json) (fuel room : Nat) (rest : List Char), xs ≠ [] →
    ExactItems xs → depthItems xs ≤ room → 2 * (putItems xs (']' :: rest)).length < fuel →
    readItems fuel room (putItems xs (']' :: rest)) = some (xs, rest)
  | [], _, _, _, h, _, _, _ => absurd rfl h
  | x :: xs, fuel, room, rest, _, hx, hd, hf => by
    have hlen := length_put x (putMoreItems xs (']' :: rest))
    rw [putItems] at hf
    rw [depthItems] at hd
    obtain ⟨fuel, rfl⟩ : ∃ f, fuel = f + 2 := ⟨fuel - 2, by omega⟩
    rw [putItems]
    match xs with
    | [] =>
      rw [putMoreItems] at hf
      have ih := readValue_put x fuel room (']' :: rest) hx.1 (by omega) (by omega)
        (delimited_cons (by decide) _)
      exact (readItems_of_value (fuel + 1) room _ (by decide) ih).trans (if_pos rfl)
    | y :: ys =>
      have ih := readValue_put x fuel room (putMoreItems (y :: ys) (']' :: rest)) hx.1 (by omega)
        (by omega) (delimited_cons (by decide) _)
      have ihs := readItems_put (y :: ys) (fuel + 1) room rest (by simp) hx.2 (by omega)
        (by rw [length_putMoreItems_cons] at hlen; omega)
      rw [putMoreItems_cons] at ih ⊢
      rw [readItems_of_value (fuel + 1) room _ (by decide) ih, if_neg (by decide), if_pos rfl, ihs]
      rfl
/-- The members of an object up to and with its end. -/
theorem readMembers_put : ∀ (ms : List (String × Json)) (fuel room : Nat) (rest : List Char),
    ms ≠ [] → ExactMembers ms → depthMembers ms ≤ room →
    2 * (putMembers ms ('}' :: rest)).length < fuel →
    readMembers fuel room (putMembers ms ('}' :: rest)) = some (ms, rest)
  | [], _, _, _, h, _, _, _ => absurd rfl h
  | (k, v) :: ms, fuel, room, rest, _, hx, hd, hf => by
    have hlen := length_put v (putMoreMembers ms ('}' :: rest))
    have hname := length_putString k (':' :: v.put (putMoreMembers ms ('}' :: rest)))
    rw [List.length_cons] at hname
    rw [putMembers] at hf
    rw [depthMembers] at hd
    obtain ⟨fuel, rfl⟩ : ∃ f, fuel = f + 2 := ⟨fuel - 2, by omega⟩
    have hk : readChars (fuel + 1) (putChars k.toList (':' :: v.put (putMoreMembers ms
        ('}' :: rest)))) = some (k.toList, ':' :: v.put (putMoreMembers ms ('}' :: rest))) :=
      readChars_putChars (by omega)
    rw [putMembers, putString_eq]
    match ms with
    | [] =>
      rw [putMoreMembers] at hf hname
      have ih := readValue_put v fuel room ('}' :: rest) hx.1 (by omega) (by omega)
        (delimited_cons (by decide) _)
      exact (readMembers_of_value (fuel + 1) room _ (by decide) hk ih).trans (if_pos rfl)
    | m :: ms =>
      have ih := readValue_put v fuel room (putMoreMembers (m :: ms) ('}' :: rest)) hx.1 (by omega)
        (by omega) (delimited_cons (by decide) _)
      have ihs := readMembers_put (m :: ms) (fuel + 1) room rest (by simp) hx.2 (by omega)
        (by rw [length_putMoreMembers_cons] at hlen; omega)
      rw [putMoreMembers_cons] at ih hk ⊢
      rw [readMembers_of_value (fuel + 1) room _ (by decide) hk ih, if_neg (by decide), if_pos rfl,
        ihs]
      rfl
end

/-! ## Whole texts -/

theorem readWithin_put {j : Json} (hx : j.Exact) {room : Nat} (hd : j.depth ≤ room) :
    readWithin room (j.put []) = some j := by
  rw [readWithin, readValue_put j _ room [] hx hd (by omega) delimited_nil]
  rfl

/-- What is read is no deeper than the room, and is read the same with any room that is enough. -/
theorem readWithin_eq_some {room : Nat} {cs : List Char} {j : Json}
    (h : readWithin room cs = some j) :
    j.depth ≤ room ∧ ∀ room', j.depth ≤ room' → readWithin room' cs = some j := by
  rw [readWithin_eq_filter, Option.filter_eq_some_iff] at h
  obtain ⟨hparse, hfits⟩ := h
  simp only [fits, Bool.and_eq_true, decide_eq_true_eq] at hfits
  refine ⟨hfits.1, fun room' hr => ?_⟩
  rw [readWithin_eq_filter, hparse]
  exact Option.filter_some_pos (by simp [fits, hr, hfits.2])

/-- With less room than its depth, a written value is refused. -/
theorem readWithin_put_eq_none {j : Json} (hx : j.Exact) {room : Nat} (hd : room < j.depth) :
    readWithin room (j.put []) = none := by
  cases hk : readWithin room (j.put []) with
  | none => rfl
  | some k =>
    obtain ⟨hkd, hmono⟩ := readWithin_eq_some hk
    have hj := readWithin_put hx (Nat.le_max_left j.depth k.depth)
    rw [hmono _ (Nat.le_max_right ..)] at hj
    obtain rfl := Option.some.inj hj
    exact absurd hkd (Nat.not_le.mpr hd)

theorem read?_text {j : Json} (hx : j.Exact) :
    read? j.text = if j.depth ≤ maxDepth then some j else none := by
  rw [read?, text, String.toList_ofList]
  split
  · exact readWithin_put hx ‹_›
  · exact readWithin_put_eq_none hx (by omega)

/-- A written value is the value of its text, however deep it is nested. -/
theorem ofText?_text {j : Json} (hx : j.Exact) : ofText? j.text = some j := by
  have h := readWithin_put hx (Nat.le_refl j.depth)
  rw [readWithin_eq_filter, Option.filter_eq_some_iff] at h
  rw [ofText?, text, String.toList_ofList]
  exact h.1

end DocTree.Json
