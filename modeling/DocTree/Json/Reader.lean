import DocTree.Json
import DocTree.Text.Digits

/-!
# Reading JSON

The grammar is the strict one: no comments, no trailing commas, no leading zeros, no control
characters and no lone surrogates in texts. A reader also refuses a number beyond the doubles, and
values nested deeper than a bound. A value that is passed over needs no more than the form of one.

Each function reads from the front of a list of characters and returns the rest. The loops take a
number of steps as fuel; no two steps in a row leave the text as it is, so twice its length is
enough.
-/

namespace DocTree.Json

open Text (hexValue? digitValue digitsValue)

def isSpace (c : Char) : Bool := c = ' ' || c = '\t' || c = '\n' || c = '\r'

def skipSpace (cs : List Char) : List Char := cs.dropWhile isSpace

/-! ## Texts -/

/-- Four hexadecimal digits. -/
def readUnit : List Char → Option (Nat × List Char)
  | a :: b :: c :: d :: cs =>
    match hexValue? a, hexValue? b, hexValue? c, hexValue? d with
    | some a, some b, some c, some d => some (((a * 16 + b) * 16 + c) * 16 + d, cs)
    | _, _, _, _ => none
  | _ => none

def isHighSurrogate (u : Nat) : Bool := 0xD800 ≤ u && u < 0xDC00

def isLowSurrogate (u : Nat) : Bool := 0xDC00 ≤ u && u < 0xE000

/-- The character of a surrogate pair. -/
def ofSurrogates (high low : Nat) : Char :=
  Char.ofNat (0x10000 + (high - 0xD800) * 0x400 + (low - 0xDC00))

/-- A character given by its code unit; a high surrogate must be followed by a low one. -/
def readCodePoint (cs : List Char) : Option (Char × List Char) :=
  match readUnit cs with
  | none => none
  | some (u, rest) =>
    if isLowSurrogate u then none
    else if isHighSurrogate u then
      match rest with
      | '\\' :: 'u' :: more =>
        match readUnit more with
        | some (v, rest') => if isLowSurrogate v then some (ofSurrogates u v, rest') else none
        | none => none
      | _ => none
    else some (Char.ofNat u, rest)

/-- What a backslash and the character after it stand for, except for code units. -/
def shortEscape? (c : Char) : Option Char :=
  if c = '"' then some '"'
  else if c = '\\' then some '\\'
  else if c = '/' then some '/'
  else if c = 'b' then some '\x08'
  else if c = 'f' then some '\x0c'
  else if c = 'n' then some '\n'
  else if c = 'r' then some '\r'
  else if c = 't' then some '\t'
  else none

/-- The character after a backslash. -/
def readEscape : List Char → Option (Char × List Char)
  | [] => none
  | c :: cs => if c = 'u' then readCodePoint cs else (shortEscape? c).map fun d => (d, cs)

/-- The characters of a text up to and with the closing quote. -/
def readChars : Nat → List Char → Option (List Char × List Char)
  | 0, _ => none
  | _, [] => none
  | fuel + 1, c :: cs =>
    if c = '"' then some ([], cs)
    else if c = '\\' then
      match readEscape cs with
      | none => none
      | some (d, rest) => (readChars fuel rest).map fun p => (d :: p.1, p.2)
    else if c.toNat < 0x20 then none
    else (readChars fuel cs).map fun p => (c :: p.1, p.2)

/-! ## Numbers -/

/-- The fraction after the digits before the point; a point needs a digit after it. -/
def readFraction : List Char → Option (List Char × List Char)
  | '.' :: cs =>
    match cs.takeWhile Char.isDigit with
    | [] => none
    | ds => some (ds, cs.dropWhile Char.isDigit)
  | cs => some ([], cs)

/-- The sign and the digits of an exponent, after the letter. -/
def readSignedDigits (cs : List Char) : Option (Int × List Char) :=
  let (negative, ds) :=
    match cs with
    | '+' :: ds => (false, ds)
    | '-' :: ds => (true, ds)
    | ds => (false, ds)
  match ds.takeWhile Char.isDigit with
  | [] => none
  | es =>
    let value : Int := digitsValue es
    some (if negative then -value else value, ds.dropWhile Char.isDigit)

def readExponent : List Char → Option (Option Int × List Char)
  | 'e' :: cs | 'E' :: cs => (readSignedDigits cs).map fun p => (some p.1, p.2)
  | cs => some (none, cs)

/-- The digits before the point: a zero stands alone. -/
def readWhole : List Char → Option (List Char × List Char)
  | '0' :: cs => some (['0'], cs)
  | cs =>
    match cs.takeWhile Char.isDigit with
    | [] => none
    | ds => some (ds, cs.dropWhile Char.isDigit)

/-- The parts of a number without its sign: the digits before and after the point, and the exponent
if there is one. -/
structure Magnitude where
  whole : List Char
  fraction : List Char
  exponent : Option Int

def readMagnitude (cs : List Char) : Option (Magnitude × List Char) :=
  match readWhole cs with
  | none => none
  | some (whole, cs) =>
    match readFraction cs with
    | none => none
    | some (fraction, cs) =>
      (readExponent cs).map fun p => ({ whole, fraction, exponent := p.1 }, p.2)

/-- Take digits behind a number as long as it stays within 64 bits. The answer is the number and the
digits left over. -/
def takeDigits (n : Nat) : List Char → Nat × List Char
  | [] => (n, [])
  | d :: ds =>
    let m := n * 10 + digitValue d
    if m < UInt64.size then takeDigits m ds else (n, d :: ds)

/-- The number of a magnitude. Its digits are those that fit: of the others, the ones before the
point count as zeros and the ones after it not at all. -/
def Magnitude.number (m : Magnitude) (negative : Bool) : JsonNumber :=
  let (n, more) := takeDigits 0 m.whole
  if negative || !more.isEmpty || !m.fraction.isEmpty || m.exponent.isSome then
    let (digits, lost) := takeDigits n m.fraction
    .decimal negative digits
      (m.exponent.getD 0 + more.length - (m.fraction.length - lost.length : Nat))
  else .natural n

/-- A number, unless it is beyond the doubles. -/
def readNumber (cs : List Char) : Option (JsonNumber × List Char) :=
  let (negative, cs) :=
    match cs with
    | '-' :: cs => (true, cs)
    | cs => (false, cs)
  match readMagnitude cs with
  | none => none
  | some (m, rest) =>
    let n := m.number negative
    if n.inRange then some (n, rest) else none

/-! ## Values -/

/-- A given word in front. -/
def expect (word : List Char) (cs : List Char) : Option (List Char) :=
  if word.isPrefixOf cs then some (cs.drop word.length) else none

mutual
/-- A value after blanks, nested no deeper than `room`. -/
def readValue : (fuel room : Nat) → List Char → Option (Json × List Char)
  | 0, _, _ => none
  | fuel + 1, room, cs =>
    match skipSpace cs with
    | [] => none
    | '"' :: rest => (readChars fuel rest).map fun p => (.string (String.ofList p.1), p.2)
    | '[' :: rest =>
      match room with
      | 0 => none
      | room + 1 =>
        match skipSpace rest with
        | ']' :: rest => some (.array [], rest)
        | rest => (readItems fuel room rest).map fun p => (.array p.1, p.2)
    | '{' :: rest =>
      match room with
      | 0 => none
      | room + 1 =>
        match skipSpace rest with
        | '}' :: rest => some (.object [], rest)
        | rest => (readMembers fuel room rest).map fun p => (.object p.1, p.2)
    | 'n' :: rest => (expect ['u', 'l', 'l'] rest).map fun r => (.null, r)
    | 't' :: rest => (expect ['r', 'u', 'e'] rest).map fun r => (.bool true, r)
    | 'f' :: rest => (expect ['a', 'l', 's', 'e'] rest).map fun r => (.bool false, r)
    | rest => (readNumber rest).map fun p => (.number p.1, p.2)
/-- One or more items up to and with the closing bracket. -/
def readItems : (fuel room : Nat) → List Char → Option (List Json × List Char)
  | 0, _, _ => none
  | fuel + 1, room, cs =>
    match readValue fuel room cs with
    | none => none
    | some (x, rest) =>
      match skipSpace rest with
      | ']' :: rest => some ([x], rest)
      | ',' :: rest => (readItems fuel room rest).map fun p => (x :: p.1, p.2)
      | _ => none
/-- One or more members up to and with the closing brace. -/
def readMembers : (fuel room : Nat) → List Char → Option (List (String × Json) × List Char)
  | 0, _, _ => none
  | fuel + 1, room, cs =>
    match skipSpace cs with
    | '"' :: rest =>
      match readChars fuel rest with
      | none => none
      | some (name, rest) =>
        match skipSpace rest with
        | ':' :: rest =>
          match readValue fuel room rest with
          | none => none
          | some (v, rest) =>
            match skipSpace rest with
            | '}' :: rest => some ([(String.ofList name, v)], rest)
            | ',' :: rest =>
              (readMembers fuel room rest).map fun p => ((String.ofList name, v) :: p.1, p.2)
            | _ => none
        | _ => none
    | _ => none
end

/-- A whole text: one value, nested no deeper than `room`, with blanks around it. -/
def readWithin (room : Nat) (cs : List Char) : Option Json :=
  match readValue (2 * cs.length + 2) room cs with
  | some (j, rest) => if (skipSpace rest).isEmpty then some j else none
  | none => none

/-- The greatest nesting of arrays and objects that is read. -/
def maxDepth : Nat := 127

/-- The value of a text, unless it is malformed or nested too deep. -/
def read? (s : String) : Option Json := readWithin maxDepth s.toList

end DocTree.Json
