import DocTree.Text.Hidden

/-!
# Quoted text

Text between double quotes, for readers: the quote, the backslash, line ends and tabs are written
with a backslash, and characters without a form of their own by their number.
-/

namespace DocTree.Text

/-- The digits of a number in base 16. -/
def hexText (n : Nat) : List Char := Nat.toDigits 16 n

def quotedChar (c : Char) : List Char :=
  if c = '"' then ['\\', '"']
  else if c = '\\' then ['\\', '\\']
  else if c = '\n' then ['\\', 'n']
  else if c = '\r' then ['\\', 'r']
  else if c = '\t' then ['\\', 't']
  else if c.toNat = 0 then ['\\', '0']
  else if isHidden c then ['\\', 'u', '\x7b'] ++ hexText c.toNat ++ ['\x7d']
  else [c]

def quoted (s : String) : String := String.ofList ('"' :: s.toList.flatMap quotedChar ++ ['"'])

end DocTree.Text
