import DocTree.Json.Reader

/-!
# JSON without bounds

The grammar alone bounds neither the nesting of a text nor the size of its numbers. Here the value
of a text is read without these two bounds (`ofText?`); only code units that make no character leave
a text of the grammar without a value. The reader with bounds reads the same value, and refuses it
if it is nested too deep for the room or has a number beyond the doubles (`read_filters`).

Main result: `read?_eq_filter`.
-/

namespace DocTree.Json

/-! ## The grammar -/

/-- A number of any size. -/
def parseNumber : List Char → Option (JsonNumber × List Char)
  | '-' :: cs => (readMagnitude cs).map fun p => (p.1.number true, p.2)
  | cs => (readMagnitude cs).map fun p => (p.1.number false, p.2)

mutual
/-- A value after blanks. -/
def parseValue : (fuel : Nat) → List Char → Option (Json × List Char)
  | 0, _ => none
  | fuel + 1, cs =>
    match skipSpace cs with
    | [] => none
    | '"' :: rest => (readChars fuel rest).map fun p => (.string (String.ofList p.1), p.2)
    | '[' :: rest =>
      match skipSpace rest with
      | ']' :: rest => some (.array [], rest)
      | rest => (parseItems fuel rest).map fun p => (.array p.1, p.2)
    | '{' :: rest =>
      match skipSpace rest with
      | '}' :: rest => some (.object [], rest)
      | rest => (parseMembers fuel rest).map fun p => (.object p.1, p.2)
    | 'n' :: rest => (expect ['u', 'l', 'l'] rest).map fun r => (.null, r)
    | 't' :: rest => (expect ['r', 'u', 'e'] rest).map fun r => (.bool true, r)
    | 'f' :: rest => (expect ['a', 'l', 's', 'e'] rest).map fun r => (.bool false, r)
    | rest => (parseNumber rest).map fun p => (.number p.1, p.2)
/-- One or more items up to and with the closing bracket. -/
def parseItems : (fuel : Nat) → List Char → Option (List Json × List Char)
  | 0, _ => none
  | fuel + 1, cs =>
    match parseValue fuel cs with
    | none => none
    | some (x, rest) =>
      match skipSpace rest with
      | ']' :: rest => some ([x], rest)
      | ',' :: rest => (parseItems fuel rest).map fun p => (x :: p.1, p.2)
      | _ => none
/-- One or more members up to and with the closing brace. -/
def parseMembers : (fuel : Nat) → List Char → Option (List (String × Json) × List Char)
  | 0, _ => none
  | fuel + 1, cs =>
    match skipSpace cs with
    | '"' :: rest =>
      match readChars fuel rest with
      | none => none
      | some (name, rest) =>
        match skipSpace rest with
        | ':' :: rest =>
          match parseValue fuel rest with
          | none => none
          | some (v, rest) =>
            match skipSpace rest with
            | '}' :: rest => some ([(String.ofList name, v)], rest)
            | ',' :: rest =>
              (parseMembers fuel rest).map fun p => ((String.ofList name, v) :: p.1, p.2)
            | _ => none
        | _ => none
    | _ => none
end

/-- A whole text: one value with blanks around it. -/
def parseWhole (cs : List Char) : Option Json :=
  match parseValue (2 * cs.length + 2) cs with
  | some (j, rest) => if (skipSpace rest).isEmpty then some j else none
  | none => none

/-- The value of a text, however deep it is nested and however large its numbers are. -/
def ofText? (s : String) : Option Json := parseWhole s.toList

/-! ## Values within bounds -/

mutual
/-- No number in a value is beyond the doubles. -/
def inRange : Json → Bool
  | number n => n.inRange
  | array xs => inRangeItems xs
  | object ms => inRangeMembers ms
  | _ => true
def inRangeItems : List Json → Bool
  | [] => true
  | x :: xs => x.inRange && inRangeItems xs
def inRangeMembers : List (String × Json) → Bool
  | [] => true
  | (_, v) :: ms => v.inRange && inRangeMembers ms
end

/-- A value that a reader with some room takes. -/
def fits (room : Nat) (j : Json) : Bool := j.depth ≤ room && j.inRange

def fitsItems (room : Nat) (xs : List Json) : Bool := depthItems xs ≤ room && inRangeItems xs

def fitsMembers (room : Nat) (ms : List (String × Json)) : Bool :=
  depthMembers ms ≤ room && inRangeMembers ms

@[simp] theorem fits_null (room : Nat) : fits room null = true := by simp [fits, depth, inRange]

@[simp] theorem fits_bool (room : Nat) (b : Bool) : fits room (bool b) = true := by
  simp [fits, depth, inRange]

@[simp] theorem fits_number (room : Nat) (n : JsonNumber) : fits room (number n) = n.inRange := by
  simp [fits, depth, inRange]

@[simp] theorem fits_string (room : Nat) (s : String) : fits room (string s) = true := by
  simp [fits, depth, inRange]

@[simp] theorem fits_zero_array (xs : List Json) : fits 0 (array xs) = false := by
  simp [fits, depth]

@[simp] theorem fits_zero_object (ms : List (String × Json)) : fits 0 (object ms) = false := by
  simp [fits, depth]

@[simp] theorem fits_succ_array (room : Nat) (xs : List Json) :
    fits (room + 1) (array xs) = fitsItems room xs := by
  simp [fits, fitsItems, depth, inRange, Nat.add_comm 1]

@[simp] theorem fits_succ_object (room : Nat) (ms : List (String × Json)) :
    fits (room + 1) (object ms) = fitsMembers room ms := by
  simp [fits, fitsMembers, depth, inRange, Nat.add_comm 1]

@[simp] theorem fitsItems_nil (room : Nat) : fitsItems room [] = true := by
  simp [fitsItems, depthItems, inRangeItems]

@[simp] theorem fitsItems_cons (room : Nat) (x : Json) (xs : List Json) :
    fitsItems room (x :: xs) = (fits room x && fitsItems room xs) := by
  simp only [fitsItems, fits, depthItems, inRangeItems, Nat.max_le, Bool.decide_and]
  ac_rfl

@[simp] theorem fitsMembers_nil (room : Nat) : fitsMembers room [] = true := by
  simp [fitsMembers, depthMembers, inRangeMembers]

@[simp] theorem fitsMembers_cons (room : Nat) (m : String × Json) (ms : List (String × Json)) :
    fitsMembers room (m :: ms) = (fits room m.2 && fitsMembers room ms) := by
  simp only [fitsMembers, fits, depthMembers, inRangeMembers, Nat.max_le, Bool.decide_and]
  ac_rfl

/-! ## The reader with bounds -/

/-- Of what is read in front, only a value that passes a test. -/
def Filters {α : Type} (pass : α → Bool) (read parse : List Char → Option (α × List Char)) : Prop :=
  ∀ cs, read cs = (parse cs).filter fun p => pass p.1

section
variable {α β : Type} {o : Option α} {f : α → β} {pass : β → Bool}

theorem filter_map_of_pass (h : ∀ a, pass (f a) = true) : (o.map f).filter pass = o.map f := by
  cases o with
  | none => rfl
  | some a => exact Option.filter_some_pos (h a)

theorem filter_map_of_not_pass (h : ∀ a, pass (f a) = false) : (o.map f).filter pass = none := by
  cases o with
  | none => rfl
  | some a => exact Option.filter_some_neg (by simp [h a])

end

/-- A value made of what is read passes if what is read does. -/
theorem Filters.map {α β : Type} {pass : α → Bool} {read parse : List Char → Option (α × List Char)}
    (h : Filters pass read parse) {f : α → β} {pass' : β → Bool} (hf : ∀ a, pass' (f a) = pass a)
    (cs : List Char) :
    ((read cs).map fun p => (f p.1, p.2)) =
      ((parse cs).map fun p => (f p.1, p.2)).filter fun p => pass' p.1 := by
  rw [h cs, Option.filter_map]
  exact congrArg (fun t => Option.map _ (Option.filter t _)) (funext fun p => (hf p.1).symm)

theorem readNumber_filters : Filters JsonNumber.inRange readNumber parseNumber := by
  intro cs
  unfold parseNumber
  split
  · rename_i ds
    cases h : readMagnitude ds with
    | none => simp [readNumber, h]
    | some p => simp [readNumber, h, Option.filter_some]
  · cases h : readMagnitude cs with
    | none => simp [readNumber, h]
    | some p => simp [readNumber, h, Option.filter_some]

section
variable {fuel : Nat}

theorem readValue_filters
    (hi : ∀ room, Filters (fitsItems room) (readItems fuel room) (parseItems fuel))
    (hm : ∀ room, Filters (fitsMembers room) (readMembers fuel room) (parseMembers fuel))
    (room : Nat) : Filters (fits room) (readValue (fuel + 1) room) (parseValue (fuel + 1)) := by
  intro cs
  rw [readValue, parseValue]
  generalize skipSpace cs = ds
  split
  case h_1 => rfl
  -- Texts and words are within every bound.
  case h_2 | h_5 | h_6 | h_7 => exact (filter_map_of_pass fun _ => by simp).symm
  case h_3 rest =>
    cases room with
    | zero =>
      simp only
      symm
      split
      · exact Option.filter_some_neg (by simp)
      · exact filter_map_of_not_pass fun _ => fits_zero_array _
    | succ room =>
      simp only
      generalize skipSpace rest = more
      split
      · simp [Option.filter_some]
      · simp only [(hi room).map (fits_succ_array room)]
  case h_4 rest =>
    cases room with
    | zero =>
      simp only
      symm
      split
      · exact Option.filter_some_neg (by simp)
      · exact filter_map_of_not_pass fun _ => fits_zero_object _
    | succ room =>
      simp only
      generalize skipSpace rest = more
      split
      · simp [Option.filter_some]
      · simp only [(hm room).map (fits_succ_object room)]
  case h_8 => simp only [readNumber_filters.map (fits_number room)]

theorem readItems_filters {room : Nat}
    (hv : Filters (fits room) (readValue fuel room) (parseValue fuel))
    (hi : Filters (fitsItems room) (readItems fuel room) (parseItems fuel)) :
    Filters (fitsItems room) (readItems (fuel + 1) room) (parseItems (fuel + 1)) := by
  intro cs
  rw [readItems, parseItems, hv cs]
  rcases parseValue fuel cs with _ | ⟨x, rest⟩
  · rfl
  · cases hx : fits room x with
    | true =>
      simp only [Option.filter_some, hx, if_true]
      generalize skipSpace rest = ds
      split
      · simp [Option.filter_some, hx]
      · exact hi.map (fun xs => by simp [hx]) _
      · simp only [Option.filter_none]
    | false =>
      simp only [Option.filter_some, hx, Bool.false_eq_true, if_false]
      generalize skipSpace rest = ds
      split
      · simp [Option.filter_some, hx]
      · exact (filter_map_of_not_pass fun _ => by simp [hx]).symm
      · rfl

theorem readMembers_filters {room : Nat}
    (hv : Filters (fits room) (readValue fuel room) (parseValue fuel))
    (hm : Filters (fitsMembers room) (readMembers fuel room) (parseMembers fuel)) :
    Filters (fitsMembers room) (readMembers (fuel + 1) room) (parseMembers (fuel + 1)) := by
  intro cs
  rw [readMembers, parseMembers]
  generalize skipSpace cs = ds
  split
  · rename_i front
    rcases Option.eq_none_or_eq_some (readChars fuel front) with hname | ⟨⟨name, rest⟩, hname⟩
    · simp only [hname, Option.filter_none]
    simp only [hname]
    generalize skipSpace rest = afterName
    split
    · rename_i text
      rcases hvalue : parseValue fuel text with _ | ⟨v, rest⟩
      · simp only [hv text, hvalue, Option.filter_none]
      cases hx : fits room v with
      | true =>
        simp only [hv text, hvalue, Option.filter_some, hx, if_true]
        generalize skipSpace rest = afterValue
        split
        · simp [Option.filter_some, hx]
        · exact hm.map (fun ms => by simp [hx]) _
        · simp only [Option.filter_none]
      | false =>
        simp only [hv text, hvalue, Option.filter_some, hx, Bool.false_eq_true, if_false]
        generalize skipSpace rest = afterValue
        split
        · simp [Option.filter_some, hx]
        · exact (filter_map_of_not_pass fun _ => by simp [hx]).symm
        · rfl
    · simp only [Option.filter_none]
  · simp only [Option.filter_none]

end

theorem read_filters (fuel : Nat) :
    (∀ room, Filters (fits room) (readValue fuel room) (parseValue fuel)) ∧
      (∀ room, Filters (fitsItems room) (readItems fuel room) (parseItems fuel)) ∧
        ∀ room, Filters (fitsMembers room) (readMembers fuel room) (parseMembers fuel) := by
  induction fuel with
  | zero => exact ⟨fun _ _ => rfl, fun _ _ => rfl, fun _ _ => rfl⟩
  | succ fuel ih =>
    obtain ⟨hv, hi, hm⟩ := ih
    exact ⟨readValue_filters hi hm, fun room => readItems_filters (hv room) (hi room),
      fun room => readMembers_filters (hv room) (hm room)⟩

/-! ## Whole texts -/

theorem readWithin_eq_filter (room : Nat) (cs : List Char) :
    readWithin room cs = (parseWhole cs).filter (fits room) := by
  unfold readWithin parseWhole
  rw [(read_filters _).1 room]
  rcases parseValue (2 * cs.length + 2) cs with _ | ⟨j, rest⟩
  · rfl
  · rw [Option.filter_some]
    by_cases hj : fits room j = true
    · rw [if_pos hj]
      simp only
      split
      · exact (Option.filter_some_pos hj).symm
      · rfl
    · rw [if_neg hj]
      simp only
      split
      · exact (Option.filter_some_neg (Bool.eq_false_iff.mpr hj)).symm
      · rfl

/-- A text is refused where it has no value, or one beyond the bounds. -/
theorem read?_eq_filter (s : String) : read? s = (ofText? s).filter (fits maxDepth) :=
  readWithin_eq_filter maxDepth s.toList

end DocTree.Json
