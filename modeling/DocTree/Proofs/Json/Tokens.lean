import DocTree.Json.Reader
import DocTree.Json.Writer

/-!
# Texts and numbers written as JSON

What the writer puts for a text or a number, the reader takes back, whatever stands behind it. A
number has no end of its own, so behind it must stand something that does not continue it
(`Delimited`); behind every value of a written tree there does.

Main results: `readChars_putString` and `readNumber_putNumber`.
-/

namespace DocTree.Json

open Text (hexValue? digitValue digitsValue)

/-! ## Texts -/

theorem hexValue?_hexDigit : ∀ n < 16, hexValue? (hexDigit n) = some n := by decide

theorem readUnit_control {n : Nat} (h : n < 0x20) (rest : List Char) :
    readUnit ('0' :: '0' :: hexDigit (n / 16) :: hexDigit (n % 16) :: rest) = some (n, rest) := by
  have hzero : hexValue? '0' = some 0 := by decide
  rw [readUnit, hzero, hexValue?_hexDigit (n / 16) (by omega),
    hexValue?_hexDigit (n % 16) (by omega)]
  simp only [Option.some.injEq, Prod.mk.injEq, and_true]
  omega

theorem readEscape_control {c : Char} (h : c.toNat < 0x20) (rest : List Char) :
    readEscape ('u' :: '0' :: '0' :: hexDigit (c.toNat / 16) :: hexDigit (c.toNat % 16) :: rest) =
      some (c, rest) := by
  have hlow : isLowSurrogate c.toNat = false := by simp [isLowSurrogate]; omega
  have hhigh : isHighSurrogate c.toNat = false := by simp [isHighSurrogate]; omega
  rw [readEscape, if_pos rfl, readCodePoint, readUnit_control h]
  simp [hlow, hhigh]

/-- A written character is read as one. -/
theorem readChars_putChar (fuel : Nat) (c : Char) (rest : List Char) :
    readChars (fuel + 1) (putChar c rest) = (readChars fuel rest).map fun p => (c :: p.1, p.2) := by
  unfold putChar
  iterate 7
    split
    · subst c
      simp [readChars, readEscape, shortEscape?]
  split
  · rename_i hc
    rw [readChars, if_neg (by decide), if_pos rfl, readEscape_control hc]
  · rename_i hquote hback _ _ _ _ _ hc
    rw [readChars, if_neg hquote, if_neg hback, if_neg hc]

theorem length_putChar (c : Char) (rest : List Char) :
    rest.length + 1 ≤ (putChar c rest).length := by
  unfold putChar
  repeat' split
  all_goals simp only [List.length_cons]; omega

/-- The characters of a text and its closing quote. -/
def putChars (cs rest : List Char) : List Char := cs.foldr putChar ('"' :: rest)

theorem length_putChars (cs rest : List Char) :
    cs.length + rest.length + 1 ≤ (putChars cs rest).length := by
  induction cs with
  | nil => simp [putChars]
  | cons c cs ih =>
    have := length_putChar c (putChars cs rest)
    simp only [putChars, List.foldr_cons, List.length_cons] at this ih ⊢
    omega

theorem readChars_putChars {fuel : Nat} {cs rest : List Char} (h : cs.length < fuel) :
    readChars fuel (putChars cs rest) = some (cs, rest) := by
  induction cs generalizing fuel with
  | nil =>
    obtain ⟨fuel, rfl⟩ := Nat.exists_eq_succ_of_ne_zero (Nat.ne_of_gt h)
    rfl
  | cons c cs ih =>
    simp only [List.length_cons] at h
    obtain ⟨fuel, rfl⟩ := Nat.exists_eq_succ_of_ne_zero (Nat.ne_of_gt (Nat.zero_lt_of_lt h))
    have ih : readChars fuel (putChars cs rest) = some (cs, rest) := ih (by omega)
    rw [putChars, List.foldr_cons, readChars_putChar]
    rw [putChars] at ih
    rw [ih]
    rfl

theorem putString_eq (s : String) (rest : List Char) :
    putString s rest = '"' :: putChars s.toList rest := rfl

/-! ## Numbers -/

/-- Nothing follows, or what follows a value inside an array or object. -/
def Delimited (rest : List Char) : Prop :=
  ∀ c cs, rest = c :: cs → c = ',' ∨ c = ']' ∨ c = '}'

theorem delimited_nil : Delimited [] := nofun

theorem delimited_cons {c : Char} (h : c = ',' ∨ c = ']' ∨ c = '}') (rest : List Char) :
    Delimited (c :: rest) := by
  rintro _ _ ⟨rfl, rfl⟩
  exact h

/-- No digit stands in front. -/
def NoDigit (rest : List Char) : Prop := ∀ c cs, rest = c :: cs → c.isDigit = false

theorem noDigit_cons {c : Char} (h : c.isDigit = false) (rest : List Char) :
    NoDigit (c :: rest) := by
  rintro _ _ ⟨rfl, rfl⟩
  exact h

theorem Delimited.noDigit {rest : List Char} (h : Delimited rest) : NoDigit rest := by
  intro c cs hc
  rcases h c cs hc with rfl | rfl | rfl <;> decide

section
variable {ds rest : List Char} (hd : ∀ c ∈ ds, c.isDigit = true) (hr : NoDigit rest)
include hd hr

theorem takeWhile_digits : (ds ++ rest).takeWhile Char.isDigit = ds := by
  rw [List.takeWhile_append_of_pos hd]
  cases rest with
  | nil => simp
  | cons c cs => rw [List.takeWhile_cons_of_neg (by simp [hr c cs rfl]), List.append_nil]

theorem dropWhile_digits : (ds ++ rest).dropWhile Char.isDigit = rest := by
  rw [List.dropWhile_append_of_pos hd]
  cases rest with
  | nil => rfl
  | cons c cs => rw [List.dropWhile_cons_of_neg (by simp [hr c cs rfl])]

end

theorem isDigit_of_mem_digits {n : Nat} : ∀ c ∈ Nat.toDigits 10 n, c.isDigit = true :=
  fun _ hc => Nat.isDigit_of_mem_toDigits (by decide) (by decide) hc

/-- Only zero is written with a leading zero. -/
theorem digits_eq_cons {n : Nat} (h : n ≠ 0) :
    ∃ d ds, Nat.toDigits 10 n = d :: ds ∧ d ≠ '0' := by
  induction n using Nat.strongRecOn with
  | ind n ih =>
    by_cases hn : n < 10
    · refine ⟨n.digitChar, [], Nat.toDigits_of_lt_base hn, fun he => ?_⟩
      have := congrArg Char.toNat he
      rw [Nat.toNat_digitChar_of_lt_ten hn] at this
      simp at this
      omega
    · obtain ⟨d, ds, hds, hd⟩ := ih (n / 10) (by omega) (by omega)
      refine ⟨d, ds ++ [(n % 10).digitChar], ?_, hd⟩
      rw [Nat.toDigits_of_base_le (by decide) (by omega), hds, List.cons_append]

theorem readWhole_digits (n : Nat) {rest : List Char} (hr : NoDigit rest) :
    readWhole (Nat.toDigits 10 n ++ rest) = some (Nat.toDigits 10 n, rest) := by
  by_cases hn : n = 0
  · subst hn
    rw [Nat.toDigits_zero]
    rfl
  · obtain ⟨d, ds, hds, hd⟩ := digits_eq_cons hn
    have htake := takeWhile_digits (isDigit_of_mem_digits (n := n)) hr
    have hdrop := dropWhile_digits (isDigit_of_mem_digits (n := n)) hr
    rw [hds] at htake hdrop ⊢
    rw [List.cons_append] at htake hdrop ⊢
    rw [readWhole]
    · rw [htake, hdrop]
    · rintro cs ⟨rfl, -⟩
      exact hd rfl

theorem readFraction_of_ne {rest : List Char} (h : ∀ cs, rest ≠ '.' :: cs) :
    readFraction rest = some ([], rest) := by
  rw [readFraction]
  exact fun cs hc => h cs hc

theorem readExponent_of_ne {rest : List Char} (he : ∀ cs, rest ≠ 'e' :: cs)
    (hE : ∀ cs, rest ≠ 'E' :: cs) : readExponent rest = some (none, rest) := by
  rw [readExponent]
  · exact fun cs hc => he cs hc
  · exact fun cs hc => hE cs hc

theorem Delimited.ne {rest : List Char} (h : Delimited rest) {c : Char}
    (hc : c ≠ ',' ∧ c ≠ ']' ∧ c ≠ '}') : ∀ cs, rest ≠ c :: cs := by
  rintro cs rfl
  rcases h c cs rfl with rfl | rfl | rfl <;> simp at hc

theorem readMagnitude_digits (n : Nat) {rest : List Char} (h : Delimited rest) :
    readMagnitude (Nat.toDigits 10 n ++ rest) = some (⟨Nat.toDigits 10 n, [], none⟩, rest) := by
  rw [readMagnitude, readWhole_digits n h.noDigit]
  simp only
  rw [readFraction_of_ne (h.ne (by decide))]
  simp only
  rw [readExponent_of_ne (h.ne (by decide)) (h.ne (by decide))]
  rfl

/-- The exponent of a decimal as it is written. -/
def exponentText (exponent : Int) : List Char :=
  (if exponent < 0 then ['-'] else []) ++ Nat.toDigits 10 exponent.natAbs

theorem digitsValue_digits (n : Nat) : digitsValue (Nat.toDigits 10 n) = n := by
  have h : ∀ (ds : List Char) (m : Nat),
      ds.foldl (fun n d => n * 10 + digitValue d) m = Nat.ofDigitChars 10 ds m := by
    intro ds m
    rw [Nat.ofDigitChars_eq_foldl]
    congr
    funext a c
    rw [Nat.mul_comm]
    rfl
  rw [digitsValue, h, Nat.ofDigitChars_ten_toDigits]

theorem readSignedDigits_exponentText (exponent : Int) {rest : List Char} (hr : NoDigit rest) :
    readSignedDigits (exponentText exponent ++ rest) = some (exponent, rest) := by
  have hdig := isDigit_of_mem_digits (n := exponent.natAbs)
  have htake := takeWhile_digits hdig hr
  have hdrop := dropWhile_digits hdig hr
  have hvalue := digitsValue_digits exponent.natAbs
  obtain ⟨d, ds, hds⟩ := List.exists_cons_of_ne_nil
    (Nat.toDigits_ne_nil (n := exponent.natAbs) (b := 10))
  unfold exponentText
  by_cases hneg : exponent < 0
  · rw [if_pos hneg, List.append_assoc, List.singleton_append, readSignedDigits]
    simp only
    rw [htake, hdrop, hds]
    simp only [if_true, ← hds, hvalue]
    congr 2
    omega
  · have hd := hdig d (by rw [hds]; exact List.mem_cons_self)
    rw [if_neg hneg, List.nil_append]
    rw [hds, List.cons_append] at htake hdrop ⊢
    rw [readSignedDigits]
    · simp only
      rw [htake, hdrop]
      simp only [Bool.false_eq_true, if_false, ← hds, hvalue]
      congr 2
      omega
    · rintro cs ⟨rfl, -⟩
      exact absurd hd (by decide)
    · rintro cs ⟨rfl, -⟩
      exact absurd hd (by decide)

theorem readMagnitude_decimal (n : Nat) (exponent : Int) {rest : List Char} (h : Delimited rest) :
    readMagnitude (Nat.toDigits 10 n ++ 'e' :: exponentText exponent ++ rest) =
      some (⟨Nat.toDigits 10 n, [], some exponent⟩, rest) := by
  rw [List.append_assoc, List.cons_append, readMagnitude,
    readWhole_digits n (noDigit_cons (by decide) _)]
  simp only
  rw [readFraction_of_ne (by simp)]
  simp only
  rw [readExponent, readSignedDigits_exponentText exponent h.noDigit]
  rfl

/-! ### The value of the digits -/

theorem takeDigits_of_lt {n : Nat} {ds : List Char}
    (h : Nat.ofDigitChars 10 ds n < UInt64.size) :
    takeDigits n ds = (Nat.ofDigitChars 10 ds n, []) := by
  induction ds generalizing n with
  | nil => rfl
  | cons d ds ih =>
    have hm : n * 10 + digitValue d ≤ Nat.ofDigitChars 10 (d :: ds) n := by
      rw [Nat.ofDigitChars_cons, Nat.ofDigitChars_eq_ofDigitChars_zero]
      have := Nat.le_mul_of_pos_left (10 * n + (d.toNat - '0'.toNat)) (Nat.pow_pos (n := ds.length)
        (by decide : 0 < 10))
      simp only [digitValue, Char.reduceToNat] at this ⊢
      omega
    rw [Nat.ofDigitChars_cons] at h hm ⊢
    have hstep : n * 10 + digitValue d = 10 * n + (d.toNat - '0'.toNat) := by
      rw [Nat.mul_comm]
      rfl
    rw [takeDigits, if_pos (by omega), hstep]
    exact ih h

theorem takeDigits_digits {n : Nat} (h : n < UInt64.size) :
    takeDigits 0 (Nat.toDigits 10 n) = (n, []) := by
  have hn : Nat.ofDigitChars 10 (Nat.toDigits 10 n) 0 = n := Nat.ofDigitChars_ten_toDigits
  rw [takeDigits_of_lt (by rwa [hn]), hn]

end DocTree.Json

namespace DocTree.JsonNumber

open Json

/-- The digits of the number are kept exactly, and the number is not beyond the doubles. -/
def Exact (n : JsonNumber) : Prop :=
  match n with
  | natural n => n < UInt64.size
  | decimal negative digits exponent =>
    digits < UInt64.size ∧ (decimal negative digits exponent).inRange = true

theorem two_pow_lt_limit : Nat.pow 2 66 < Double.limit := by decide +kernel

/-- Rounding a 64-bit number drops at most 11 bits. -/
theorem nearest_lt {n : Nat} (h : n < UInt64.size) : Double.nearest n < Nat.pow 2 66 := by
  have hbits : n.log2 + 1 - 53 ≤ 11 := by
    by_cases hn : n = 0
    · simp [hn]
    · have : n.log2 < 64 := (Nat.log2_lt hn).mpr h
      omega
  have hunit : Nat.pow 2 (n.log2 + 1 - 53) ≤ 2048 := Nat.pow_le_pow_right (by decide) hbits
  have hkept := Nat.div_mul_le_self n (Nat.pow 2 (n.log2 + 1 - 53))
  simp only [UInt64.size] at h
  unfold Double.nearest Double.roundBits
  show _ < 73786976294838206464
  simp only
  split
  · rw [Nat.add_mul]
    omega
  · omega

theorem inRange_natural {n : Nat} (h : n < UInt64.size) : (natural n).inRange = true := by
  have hone : Double.nearest (Nat.pow 10 (Int.toNat 0)) = 1 :=
    Double.nearest_eq_self (by decide)
  have hn : Double.nearest n < Double.limit := Nat.lt_trans (nearest_lt h) two_pow_lt_limit
  show Double.isProductFinite n 0 = true
  rw [Double.isProductFinite, hone, Nat.mul_one, decide_eq_true hn]
  simp

end DocTree.JsonNumber

namespace DocTree.Json

/-- The sign is taken off, and the magnitude decides. -/
theorem readNumber_of_magnitude (negative : Bool) {n : JsonNumber} {m : Magnitude}
    {cs rest : List Char} (hcs : ∀ cs', cs ≠ '-' :: cs') (hm : readMagnitude cs = some (m, rest))
    (hn : m.number negative = n) (hr : n.inRange = true) :
    readNumber ((if negative then ['-'] else []) ++ cs) = some (n, rest) := by
  cases negative with
  | true =>
    simp only [if_true, List.singleton_append]
    rw [readNumber]
    simp only
    rw [hm]
    simp only [hn, hr, if_true]
  | false =>
    simp only [Bool.false_eq_true, if_false, List.nil_append]
    rw [readNumber]
    · simp only
      rw [hm]
      simp only [hn, hr, if_true]
    · exact fun cs' h => hcs cs' h

theorem digits_append_ne_minus (n : Nat) (rest : List Char) :
    ∀ cs, Nat.toDigits 10 n ++ rest ≠ '-' :: cs := by
  intro cs h
  obtain ⟨d, ds, hds⟩ := List.exists_cons_of_ne_nil (Nat.toDigits_ne_nil (n := n) (b := 10))
  rw [hds, List.cons_append] at h
  obtain ⟨rfl, -⟩ := List.cons.inj h
  exact absurd (isDigit_of_mem_digits (n := n) '-' (by rw [hds]; exact List.mem_cons_self))
    (by decide)

theorem putNumber_decimal (negative : Bool) (digits : Nat) (exponent : Int) (rest : List Char) :
    putNumber (.decimal negative digits exponent) rest =
      (if negative then ['-'] else []) ++
        (Nat.toDigits 10 digits ++ 'e' :: exponentText exponent ++ rest) := by
  simp [putNumber, putNat, exponentText, Nat.toList_repr]

theorem readNumber_putNumber {n : JsonNumber} (hn : n.Exact) {rest : List Char}
    (h : Delimited rest) : readNumber (putNumber n rest) = some (n, rest) := by
  cases n with
  | natural n =>
    have hnum : (Magnitude.mk (Nat.toDigits 10 n) [] none).number false = .natural n := by
      simp only [Magnitude.number, takeDigits_digits hn]
      rfl
    have := readNumber_of_magnitude false (digits_append_ne_minus n rest)
      (readMagnitude_digits n h) hnum (JsonNumber.inRange_natural hn)
    rwa [if_neg (by decide), List.nil_append, ← Nat.toList_repr] at this
  | decimal negative digits exponent =>
    obtain ⟨hd, hr⟩ := hn
    have hnum : (Magnitude.mk (Nat.toDigits 10 digits) [] (some exponent)).number negative =
        .decimal negative digits exponent := by
      simp [Magnitude.number, takeDigits_digits hd, takeDigits]
    rw [putNumber_decimal]
    refine readNumber_of_magnitude negative ?_ (readMagnitude_decimal digits exponent h) hnum hr
    rw [List.append_assoc]
    exact digits_append_ne_minus digits _

end DocTree.Json
