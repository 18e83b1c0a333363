/-!
# The range of doubles

A double has 53 significant bits, and its greatest finite value lies below `2 ^ 1024`. Only natural
numbers matter here: whether a decimal has a finite double depends on nothing behind the point but
on which side of a natural number it lies.

`nearest` rounds a natural number to 53 bits. Two questions are asked about a decimal
`digits · 10 ^ exponent`: whether the decimal itself stays in range, and whether the product of the
doubles nearest to its two factors does.
-/

namespace DocTree.Double

/-- The least number that rounds beyond the greatest double: halfway between that double and the
next power of two. -/
def limit : Nat := Nat.pow 2 1024 - Nat.pow 2 970

/-- A number without its lowest bits, of which there are `bits`, rounded to the nearest; a tie goes
to the even one. -/
def roundBits (bits n : Nat) : Nat :=
  let unit := Nat.pow 2 bits
  let kept := n / unit
  let lost := n % unit
  if unit < 2 * lost ∨ (unit = 2 * lost ∧ kept % 2 = 1) then (kept + 1) * unit else kept * unit

/-- The number with 53 significant bits that is nearest to a number. -/
def nearest (n : Nat) : Nat := roundBits (n.log2 + 1 - 53) n

theorem roundBits_zero (n : Nat) : roundBits 0 n = n := by
  simp [roundBits, Nat.mod_one]

/-- Numbers of at most 53 bits are doubles themselves. -/
theorem nearest_eq_self {n : Nat} (h : n < Nat.pow 2 53) : nearest n = n := by
  have bits : n.log2 + 1 - 53 = 0 := by
    by_cases hn : n = 0
    · simp [hn]
    · have := (Nat.log2_lt hn).mpr h
      omega
  rw [nearest, bits, roundBits_zero]

/-- The decimal rounds to a finite double. Decimals with other than 309 places before the point are
told apart by their places alone. -/
def isFinite (digits : Nat) (exponent : Int) : Bool :=
  let places : Int := digits.repr.length + exponent
  digits = 0 || places < 309 ||
    (places = 309 &&
      if 0 ≤ exponent then digits * Nat.pow 10 exponent.toNat < limit
      else digits < limit * Nat.pow 10 (-exponent).toNat)

/-- The double nearest to the digits, times the double nearest to the power of ten, rounds to a
finite one. Powers beyond `10 ^ 308` have no finite double. -/
def isProductFinite (digits : Nat) (exponent : Int) : Bool :=
  digits = 0 || exponent < 0 ||
    (exponent ≤ 308 && nearest digits * nearest (Nat.pow 10 exponent.toNat) < limit)

end DocTree.Double
