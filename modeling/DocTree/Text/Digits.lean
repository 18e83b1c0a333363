/-!
# Digits

The values of digits and of digit sequences.
-/

namespace DocTree.Text

/-- The value of a digit in base 16, in either case. -/
def hexValue? (c : Char) : Option Nat :=
  if '0' ≤ c ∧ c ≤ '9' then some (c.toNat - 48)
  else if 'a' ≤ c ∧ c ≤ 'f' then some (c.toNat - 87)
  else if 'A' ≤ c ∧ c ≤ 'F' then some (c.toNat - 55)
  else none

theorem hexValue?_lt {c : Char} {n : Nat} (h : hexValue? c = some n) : n < 16 := by
  have bound : ∀ a b : Char, a ≤ b → a.toNat ≤ b.toNat := fun _ _ h => h
  unfold hexValue? at h
  split at h
  · rename_i hc
    have := bound _ _ hc.2
    simp at h this; omega
  · split at h
    · rename_i hc
      have := bound _ _ hc.2
      simp at h this; omega
    · split at h
      · rename_i hc
        have := bound _ _ hc.2
        simp at h this; omega
      · cases h

/-- The value of a decimal digit. -/
def digitValue (d : Char) : Nat := d.toNat - 48

/-- The value of decimal digits. -/
def digitsValue (ds : List Char) : Nat := ds.foldl (fun n d => n * 10 + digitValue d) 0

/-- The value of digits in a base up to 16. -/
def valueIn (base : Nat) (ds : List Char) : Nat :=
  ds.foldl (fun n d => n * base + (hexValue? d).getD 0) 0

end DocTree.Text
