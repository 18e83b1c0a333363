/-!
# White space and ASCII punctuation

The characters of the Unicode property `White_Space`, and the printable ASCII characters that are
neither letters, digits nor the space.
-/

namespace DocTree.Text

/-- The ranges of the property `White_Space`, in code point order. -/
def blankRanges : List (Nat × Nat) :=
  [(0x09, 0x0D), (0x20, 0x20), (0x85, 0x85), (0xA0, 0xA0), (0x1680, 0x1680), (0x2000, 0x200A),
    (0x2028, 0x2029), (0x202F, 0x202F), (0x205F, 0x205F), (0x3000, 0x3000)]

def inRanges (ranges : List (Nat × Nat)) (c : Char) : Bool :=
  ranges.any fun r => r.1 ≤ c.toNat && c.toNat ≤ r.2

def isBlank (c : Char) : Bool := inRanges blankRanges c

/-- The white space that the standard library knows is white space here. -/
theorem isBlank_of_isWhitespace {c : Char} (h : c.isWhitespace = true) : isBlank c = true := by
  simp only [Char.isWhitespace, Bool.or_eq_true, decide_eq_true_eq] at h
  rcases h with ((rfl | rfl) | rfl) | rfl <;> decide

def punctuationRanges : List (Nat × Nat) := [(0x21, 0x2F), (0x3A, 0x40), (0x5B, 0x60), (0x7B, 0x7E)]

def isPunctuation (c : Char) : Bool := inRanges punctuationRanges c

theorem isPunctuation_ascii {c : Char} (h : isPunctuation c = true) : c.toNat < 0x7F := by
  simp only [isPunctuation, inRanges, punctuationRanges, List.any_cons, List.any_nil,
    Bool.or_eq_true, Bool.and_eq_true, decide_eq_true_eq, Bool.or_false] at h
  omega

theorem not_isBlank_of_isPunctuation {c : Char} (h : isPunctuation c = true) :
    isBlank c = false := by
  simp only [isPunctuation, isBlank, inRanges, punctuationRanges, blankRanges, List.any_cons,
    List.any_nil, Bool.or_eq_true, Bool.and_eq_true, decide_eq_true_eq, Bool.or_false,
    Bool.or_eq_false_iff, Bool.and_eq_false_iff, decide_eq_false_iff_not] at h ⊢
  omega

end DocTree.Text
