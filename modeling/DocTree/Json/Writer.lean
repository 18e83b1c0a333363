import DocTree.Json

/-!
# Writing JSON

The compact form: no blanks, members in their order, and in texts only the quote, the backslash and
characters below the space are escaped. Every function puts its text in front of a rest.
-/

namespace DocTree.Json

/-- A hexadecimal digit, in lower case. -/
def hexDigit (n : Nat) : Char := Char.ofNat (if n < 10 then 48 + n else 87 + n)

/-- A character inside a text. -/
def putChar (c : Char) (rest : List Char) : List Char :=
  if c = '"' then '\\' :: '"' :: rest
  else if c = '\\' then '\\' :: '\\' :: rest
  else if c = '\x08' then '\\' :: 'b' :: rest
  else if c = '\x0c' then '\\' :: 'f' :: rest
  else if c = '\n' then '\\' :: 'n' :: rest
  else if c = '\r' then '\\' :: 'r' :: rest
  else if c = '\t' then '\\' :: 't' :: rest
  else if c.toNat < 0x20 then
    '\\' :: 'u' :: '0' :: '0' :: hexDigit (c.toNat / 16) :: hexDigit (c.toNat % 16) :: rest
  else c :: rest

def putString (s : String) (rest : List Char) : List Char :=
  '"' :: s.toList.foldr putChar ('"' :: rest)

def putNat (n : Nat) (rest : List Char) : List Char := n.repr.toList ++ rest

def putNumber : JsonNumber → List Char → List Char
  | .natural n, rest => putNat n rest
  | .decimal negative digits exponent, rest =>
    (if negative then ['-'] else []) ++
      putNat digits ('e' :: (if exponent < 0 then ['-'] else []) ++ putNat exponent.natAbs rest)

mutual
/-- The text of a value in front of a rest. -/
def put : Json → List Char → List Char
  | null, rest => 'n' :: 'u' :: 'l' :: 'l' :: rest
  | bool true, rest => 't' :: 'r' :: 'u' :: 'e' :: rest
  | bool false, rest => 'f' :: 'a' :: 'l' :: 's' :: 'e' :: rest
  | number n, rest => putNumber n rest
  | string s, rest => putString s rest
  | array xs, rest => '[' :: putItems xs (']' :: rest)
  | object ms, rest => '{' :: putMembers ms ('}' :: rest)
/-- The items of an array, without brackets. -/
def putItems : List Json → List Char → List Char
  | [], rest => rest
  | x :: xs, rest => x.put (putMoreItems xs rest)
/-- Further items, each after a comma. -/
def putMoreItems : List Json → List Char → List Char
  | [], rest => rest
  | x :: xs, rest => ',' :: x.put (putMoreItems xs rest)
/-- The members of an object, without braces. -/
def putMembers : List (String × Json) → List Char → List Char
  | [], rest => rest
  | (k, v) :: ms, rest => putString k (':' :: v.put (putMoreMembers ms rest))
/-- Further members, each after a comma. -/
def putMoreMembers : List (String × Json) → List Char → List Char
  | [], rest => rest
  | (k, v) :: ms, rest => ',' :: putString k (':' :: v.put (putMoreMembers ms rest))
end

/-- The compact form. -/
def text (j : Json) : String := String.ofList (j.put [])

end DocTree.Json
