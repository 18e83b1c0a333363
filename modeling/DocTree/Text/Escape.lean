/-!
# Text as printable ASCII

A character past the tilde is written as its UTF-16 code units, each as a decimal number between
triple parentheses. Everything up to the tilde, control characters included, stands for itself.

Main statement: `escape_append`, escaping goes character by character.
-/

namespace DocTree.Text

/-- The UTF-16 code units of a character: itself, or a surrogate pair beyond the basic plane. -/
def utf16Units (c : Char) : List Nat :=
  if c.toNat < 0x10000 then [c.toNat]
  else [0xD800 + (c.toNat - 0x10000) / 0x400, 0xDC00 + (c.toNat - 0x10000) % 0x400]

/-- A code unit between triple parentheses. -/
def unitGroup (unit : Nat) : List Char :=
  ['(', '(', '('] ++ unit.repr.toList ++ [')', ')', ')']

/-- The last character that stands for itself is the tilde. -/
def isPlain (c : Char) : Bool := c.toNat ≤ 126

def escapeChar (c : Char) : List Char :=
  if isPlain c then [c] else (utf16Units c).flatMap unitGroup

def escapeChars (cs : List Char) : List Char := cs.flatMap escapeChar

theorem escapeChars_append (a b : List Char) :
    escapeChars (a ++ b) = escapeChars a ++ escapeChars b := List.flatMap_append

theorem escapeChars_cons_of_isPlain {c : Char} (h : isPlain c = true) (cs : List Char) :
    escapeChars (c :: cs) = c :: escapeChars cs := by
  rw [escapeChars, List.flatMap_cons, escapeChar, if_pos h]
  rfl

theorem escapeChars_of_plain {cs : List Char} (h : ∀ c ∈ cs, isPlain c = true) :
    escapeChars cs = cs := by
  induction cs with
  | nil => rfl
  | cons c cs ih =>
    rw [escapeChars_cons_of_isPlain (h c List.mem_cons_self),
      ih fun d hd => h d (List.mem_cons_of_mem _ hd)]

/-- A text that is plain is given back as it is. -/
def escape (text : String) : String :=
  if text.toList.all isPlain then text else String.ofList (escapeChars text.toList)

@[simp] theorem toList_escape (text : String) :
    (escape text).toList = escapeChars text.toList := by
  unfold escape
  split
  · rename_i h
    exact (escapeChars_of_plain (List.all_eq_true.mp h)).symm
  · exact String.toList_ofList

theorem escape_append (a b : String) : escape (a ++ b) = escape a ++ escape b := by
  rw [← String.toList_inj]
  simp [escapeChars_append]

end DocTree.Text
