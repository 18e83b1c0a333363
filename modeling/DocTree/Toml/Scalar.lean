import DocTree.Double
import DocTree.Text.Digits
import DocTree.Toml

/-!
# TOML texts, numbers and moments

Each function reads from the front of a list of characters and returns the rest.
-/

namespace DocTree.Toml

open Text (hexValue? digitsValue valueIn)

/-- Blanks inside a line. -/
def isBlank (c : Char) : Bool := c = ' ' || c = '\t'

def skipBlanks (cs : List Char) : List Char := cs.dropWhile isBlank

/-- Characters that stand for themselves in texts and comments: all but controls. -/
def isPlain (c : Char) : Bool := c = '\t' || (0x20 ≤ c.toNat && c.toNat ≠ 0x7F)

/-- A line end. -/
def readNewLine : List Char → Option (List Char)
  | '\n' :: cs => some cs
  | '\r' :: '\n' :: cs => some cs
  | _ => none

/-! ## Texts -/

/-- A character given by its number in hexadecimal digits. -/
def readCodePoint (digits : Nat) (cs : List Char) : Option (Char × List Char) :=
  let ds := cs.take digits
  let n := valueIn 16 ds
  if ds.length = digits && ds.all (fun d => (hexValue? d).isSome) && decide n.isValidChar then
    some (Char.ofNat n, cs.drop digits)
  else none

/-- The character after a backslash. -/
def readEscape : List Char → Option (Char × List Char)
  | 'b' :: cs => some ('\x08', cs)
  | 't' :: cs => some ('\t', cs)
  | 'n' :: cs => some ('\n', cs)
  | 'f' :: cs => some ('\x0c', cs)
  | 'r' :: cs => some ('\r', cs)
  | '"' :: cs => some ('"', cs)
  | '\\' :: cs => some ('\\', cs)
  | 'u' :: cs => readCodePoint 4 cs
  | 'U' :: cs => readCodePoint 8 cs
  | _ => none

/-- The characters of a text on one line, up to and with the closing quote. Between double quotes
a backslash escapes, between single ones it does not. -/
def readLineText (quote : Char) : Nat → List Char → Option (List Char × List Char)
  | 0, _ => none
  | _, [] => none
  | fuel + 1, c :: cs =>
    if c = quote then some ([], cs)
    else if c = '\\' && quote = '"' then
      match readEscape cs with
      | none => none
      | some (d, rest) => (readLineText quote fuel rest).map fun p => (d :: p.1, p.2)
    else if isPlain c then (readLineText quote fuel cs).map fun p => (c :: p.1, p.2)
    else none

/-- The text after blanks and line ends. -/
def skipBlankLines : List Char → List Char
  | [] => []
  | '\r' :: '\n' :: cs => skipBlankLines cs
  | c :: cs => if isBlank c || c = '\n' then skipBlankLines cs else c :: cs

/-- The text after a backslash at the end of a line, which swallows the line end and all blanks
and line ends after it. -/
def readContinuation (cs : List Char) : Option (List Char) :=
  (readNewLine (skipBlanks cs)).map skipBlankLines

/-- The characters of a text on several lines, up to and with the three closing quotes. Up to two
quotes in a row belong to the text, also before the closing ones. -/
def readLinesText (quote : Char) : Nat → List Char → Option (List Char × List Char)
  | 0, _ => none
  | _, [] => none
  | fuel + 1, c :: cs =>
    if c = quote then
      let n := ((c :: cs).takeWhile (· = quote)).length
      let rest := (c :: cs).drop n
      if n < 3 then
        (readLinesText quote fuel rest).map fun p => (List.replicate n quote ++ p.1, p.2)
      else if n ≤ 5 then some (List.replicate (n - 3) quote, rest)
      else none
    else if c = '\\' && quote = '"' then
      match readContinuation cs with
      | some rest => readLinesText quote fuel rest
      | none =>
        match readEscape cs with
        | none => none
        | some (d, rest) => (readLinesText quote fuel rest).map fun p => (d :: p.1, p.2)
    else
      match readNewLine (c :: cs) with
      | some rest => (readLinesText quote fuel rest).map fun p => ('\n' :: p.1, p.2)
      | none =>
        if isPlain c then (readLinesText quote fuel cs).map fun p => (c :: p.1, p.2) else none

/-- A text between quotes. A line end right after three opening quotes is not part of it. -/
def readText : List Char → Option (String × List Char)
  | [] => none
  | q :: cs =>
    if q = '"' || q = '\'' then
      let read :=
        if cs.take 2 = [q, q] then
          let body := cs.drop 2
          readLinesText q (body.length + 1) ((readNewLine body).getD body)
        else readLineText q (cs.length + 1) cs
      read.map fun p => (String.ofList p.1, p.2)
    else none

/-! ## Numbers -/

/-- Further digits, among which single underscores may stand. -/
def moreDigits (isDigit : Char → Bool) : List Char → List Char × List Char
  | [] => ([], [])
  | '_' :: c :: cs =>
    if isDigit c then
      let p := moreDigits isDigit cs
      (c :: p.1, p.2)
    else ([], '_' :: c :: cs)
  | c :: cs =>
    if isDigit c then
      let p := moreDigits isDigit cs
      (c :: p.1, p.2)
    else ([], c :: cs)

/-- One or more digits, without the underscores among them. -/
def readDigits (isDigit : Char → Bool) : List Char → Option (List Char × List Char)
  | [] => none
  | c :: cs =>
    if isDigit c then
      let p := moreDigits isDigit cs
      some (c :: p.1, p.2)
    else none

/-- Digits of a whole number: a zero stands alone. -/
def readWhole : List Char → Option (List Char × List Char)
  | '0' :: cs => some (['0'], cs)
  | cs => readDigits Char.isDigit cs

/-- A sign, `true` for minus. -/
def readSign : List Char → Bool × List Char
  | '+' :: cs => (false, cs)
  | '-' :: cs => (true, cs)
  | cs => (false, cs)

def signed (negative : Bool) (n : Nat) : Int := if negative then -n else n

/-- An integer of 64 bits. -/
def inRange (i : Int) : Bool := Int64.minValue.toInt ≤ i && i ≤ Int64.maxValue.toInt

/-- A digit of a base up to 16. -/
def isDigitIn (base : Nat) (c : Char) : Bool :=
  match hexValue? c with
  | some n => n < base
  | none => false

def readInteger (cs : List Char) : Option (Int × List Char) :=
  let inBase (base : Nat) (cs : List Char) : Option (Int × List Char) :=
    (readDigits (isDigitIn base) cs).map fun p => ((valueIn base p.1 : Int), p.2)
  let read : Option (Int × List Char) :=
    match cs with
    | '0' :: 'x' :: cs => inBase 16 cs
    | '0' :: 'o' :: cs => inBase 8 cs
    | '0' :: 'b' :: cs => inBase 2 cs
    | cs =>
      let (negative, cs) := readSign cs
      (readWhole cs).map fun p => (signed negative (digitsValue p.1), p.2)
  read.filter fun p => inRange p.1

/-- The exponent after the letter. -/
def readExponent (cs : List Char) : Option (Int × List Char) :=
  let (negative, cs) := readSign cs
  (readDigits Char.isDigit cs).map fun p => (signed negative (digitsValue p.1), p.2)

/-- What makes a number a floating-point one: a fraction, an exponent or both. The answer is the
digits of the fraction and the exponent. -/
def readFloatTail : List Char → Option ((List Char × Int) × List Char)
  | '.' :: cs =>
    match readDigits Char.isDigit cs with
    | none => none
    | some (ds, 'e' :: rest) | some (ds, 'E' :: rest) =>
      (readExponent rest).map fun p => ((ds, p.1), p.2)
    | some (ds, rest) => some ((ds, 0), rest)
  | 'e' :: cs | 'E' :: cs => (readExponent cs).map fun p => (([], p.1), p.2)
  | _ => none

/-- The rest after a floating-point number. A positive number beyond the doubles is refused, a
negative one is not. -/
def readFloat (cs : List Char) : Option (List Char) :=
  let (negative, cs) := readSign cs
  match cs with
  | 'i' :: 'n' :: 'f' :: rest => some rest
  | 'n' :: 'a' :: 'n' :: rest => some rest
  | cs =>
    match readWhole cs with
    | none => none
    | some (whole, rest) =>
      match readFloatTail rest with
      | none => none
      | some ((fraction, exponent), rest) =>
        let finite :=
          Double.isFinite (digitsValue (whole ++ fraction)) (exponent - fraction.length)
        if negative || finite then some rest else none

/-! ## Moments -/

/-- A number of a fixed count of digits. -/
def readFixed (digits : Nat) (cs : List Char) : Option (Nat × List Char) :=
  let ds := cs.take digits
  if ds.length = digits && ds.all Char.isDigit then some (digitsValue ds, cs.drop digits) else none

/-- A number of two digits between bounds. -/
def readTwo (low high : Nat) (cs : List Char) : Option (Nat × List Char) :=
  (readFixed 2 cs).filter fun p => low ≤ p.1 && p.1 ≤ high

/-- A given character in front. -/
def expect (c : Char) : List Char → Option (List Char)
  | [] => none
  | d :: cs => if d = c then some cs else none

def isLeapYear (year : Nat) : Bool := year % 4 = 0 && (year % 100 ≠ 0 || year % 400 = 0)

def daysIn (year month : Nat) : Nat :=
  if month = 2 then if isLeapYear year then 29 else 28
  else if month = 4 || month = 6 || month = 9 || month = 11 then 30
  else 31

/-- A number in at least two places. -/
def twoPlaces (n : Nat) : String := if n < 10 then "0" ++ n.repr else n.repr

def fourPlaces (n : Nat) : String :=
  "".pushn '0' (4 - n.repr.length) ++ n.repr

def readDate (cs : List Char) : Option (String × List Char) := do
  let (year, cs) ← readFixed 4 cs
  let cs ← expect '-' cs
  let (month, cs) ← readTwo 1 12 cs
  let cs ← expect '-' cs
  let (day, cs) ← readTwo 1 (daysIn year month) cs
  return (fourPlaces year ++ "-" ++ twoPlaces month ++ "-" ++ twoPlaces day, cs)

/-- The fraction of a second: nine places count, and zeros at the end are not written. -/
def readSecondFraction : List Char → Option (String × List Char)
  | '.' :: cs =>
    match cs.takeWhile Char.isDigit with
    | [] => none
    | ds =>
      let kept := ((ds.take 9).reverse.dropWhile (· = '0')).reverse
      some (String.ofList (if kept.isEmpty then [] else '.' :: kept), cs.dropWhile Char.isDigit)
  | cs => some ("", cs)

def readTime (cs : List Char) : Option (String × List Char) := do
  let (hour, cs) ← readTwo 0 23 cs
  let cs ← expect ':' cs
  let (minute, cs) ← readTwo 0 59 cs
  let cs ← expect ':' cs
  let (second, cs) ← readTwo 0 60 cs
  let (fraction, cs) ← readSecondFraction cs
  return (twoPlaces hour ++ ":" ++ twoPlaces minute ++ ":" ++ twoPlaces second ++ fraction, cs)

/-- The distance from universal time, if one is given. -/
def readOffset : List Char → Option (String × List Char)
  | 'Z' :: cs | 'z' :: cs => some ("Z", cs)
  | '+' :: cs => shift false cs
  | '-' :: cs => shift true cs
  | cs => some ("", cs)
where
  shift (negative : Bool) (cs : List Char) : Option (String × List Char) := do
    let (hour, cs) ← readTwo 0 23 cs
    let cs ← expect ':' cs
    let (minute, cs) ← readTwo 0 59 cs
    let sign := if negative && (hour ≠ 0 || minute ≠ 0) then "-" else "+"
    return (sign ++ twoPlaces hour ++ ":" ++ twoPlaces minute, cs)

/-- The time after a date, with its offset; a blank may stand for the letter between them. -/
def readTimeAfterDate : List Char → Option (String × List Char)
  | [] => none
  | c :: cs =>
    if c = 'T' || c = 't' || c = ' ' then do
      let (time, cs) ← readTime cs
      let (offset, cs) ← readOffset cs
      return ("T" ++ time ++ offset, cs)
    else none

def readMoment (cs : List Char) : Option (String × List Char) :=
  match readDate cs with
  | some (date, rest) =>
    match readTimeAfterDate rest with
    | some (time, rest) => some (date ++ time, rest)
    | none => some (date, rest)
  | none => readTime cs

/-- A number or a moment. -/
def readNumeral (cs : List Char) : Option (Toml × List Char) :=
  match readMoment cs with
  | some (m, rest) => some (moment m, rest)
  | none =>
    match readFloat cs with
    | some rest => some (float, rest)
    | none => (readInteger cs).map fun p => (integer p.1, p.2)

end DocTree.Toml
