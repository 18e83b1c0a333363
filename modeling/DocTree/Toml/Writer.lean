import DocTree.Text.Digits
import DocTree.Toml.Reader

/-!
# Writing TOML

Texts stand between double quotes, keys only where they must. A document is written as sections: a
header and its keys.
-/

namespace DocTree.Toml

/-- A hexadecimal digit, in upper case. -/
def hexDigit (n : Nat) : Char := Char.ofNat (if n < 10 then 48 + n else 55 + n)

/-- A character inside a text. -/
def textChar (c : Char) : List Char :=
  if c = '"' then ['\\', '"']
  else if c = '\\' then ['\\', '\\']
  else if c = '\x08' then ['\\', 'b']
  else if c = '\t' then ['\\', 't']
  else if c = '\n' then ['\\', 'n']
  else if c = '\x0c' then ['\\', 'f']
  else if c = '\r' then ['\\', 'r']
  else if isPlain c then [c]
  else ['\\', 'u', '0', '0', hexDigit (c.toNat / 16), hexDigit (c.toNat % 16)]

def textOf (s : String) : String := String.ofList ('"' :: s.toList.flatMap textChar ++ ['"'])

/-- A key of one part. -/
def keyOf (s : String) : String :=
  if !s.isEmpty && s.toList.all isBare then s else textOf s

def boolOf (b : Bool) : String := if b then "true" else "false"

def textsOf (ss : List String) : String := "[" ++ ", ".intercalate (ss.map textOf) ++ "]"

/-- A line with a key and a written value. -/
def pairLine (key value : String) : String := keyOf key ++ " = " ++ value ++ "\n"

/-- A header and its lines. -/
def tableLines (header : String) (pairs : List (String × String)) : String :=
  "[" ++ header ++ "]\n" ++ String.join (pairs.map fun p => pairLine p.1 p.2)

/-- Sections with an empty line between them. -/
def document (sections : List String) : String := "\n".intercalate sections

end DocTree.Toml
