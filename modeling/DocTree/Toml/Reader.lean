import DocTree.Toml.Scalar

/-!
# Reading TOML

A document is read line by line; each line adds to the table that the lines before it have built.
Arrays may span lines and have comments and a comma at the end, tables between braces may not.
Values nested too deep and keys of too many parts are refused.

The loops take a number of steps as fuel; each step but those between a bracket and its first item
takes at least one character, so twice the length of the text is enough.
-/

namespace DocTree.Toml

/-- The greatest nesting of values, and the greatest number of parts of a key. -/
def maxDepth : Nat := 79

/-! ## Comments and line ends -/

/-- The rest of a line after an optional comment, without its end. -/
def skipComment : List Char → List Char
  | '#' :: cs => cs.dropWhile isPlain
  | cs => cs

/-- The end of a line, or of the text. -/
def readLineEnd : List Char → Option (List Char)
  | [] => some []
  | cs => readNewLine cs

/-- Blanks, a comment and the end of a line. -/
def readTrailing (cs : List Char) : Option (List Char) := readLineEnd (skipComment (skipBlanks cs))

/-- The text after blanks, comments and line ends; a comment runs to the end of its line. -/
def skipFiller : Nat → List Char → Option (List Char)
  | 0, _ => none
  | fuel + 1, cs =>
    match skipBlanks cs with
    | '#' :: rest => (readNewLine (rest.dropWhile isPlain)).bind (skipFiller fuel)
    | '\n' :: rest => skipFiller fuel rest
    | '\r' :: rest => (readNewLine ('\r' :: rest)).bind (skipFiller fuel)
    | rest => some rest

/-! ## Keys -/

/-- Characters of keys without quotes. -/
def isBare (c : Char) : Bool :=
  c.isAlphanum || c = '_' || c = '-'

/-- One part of a key: bare characters or a text on one line. -/
def readKeyPart : List Char → Option (String × List Char)
  | [] => none
  | c :: cs =>
    if c = '"' || c = '\'' then
      (readLineText c (cs.length + 1) cs).map fun p => (String.ofList p.1, p.2)
    else
      match (c :: cs).takeWhile isBare with
      | [] => none
      | part => some (String.ofList part, (c :: cs).dropWhile isBare)

/-- The parts of a key, with blanks around each. -/
def readKeyParts : Nat → List Char → Option (List String × List Char)
  | 0, _ => none
  | fuel + 1, cs =>
    match readKeyPart (skipBlanks cs) with
    | none => none
    | some (part, rest) =>
      match skipBlanks rest with
      | '.' :: rest => (readKeyParts fuel rest).map fun p => (part :: p.1, p.2)
      | rest => some ([part], rest)

def readKey (cs : List Char) : Option (List String × List Char) :=
  (readKeyParts (cs.length + 1) cs).filter fun p => p.1.length ≤ maxDepth

/-! ## Values -/

/-- A given word in front. -/
def readWord (word : String) (cs : List Char) : Option (List Char) :=
  if word.toList.isPrefixOf cs then some (cs.drop word.length) else none

mutual
/-- A value in front, nested no deeper than `room`. -/
def readValue : (fuel room : Nat) → List Char → Option (Toml × List Char)
  | 0, _, _ => none
  | _, _, [] => none
  | fuel + 1, room, c :: cs =>
    if c = '"' || c = '\'' then (readText (c :: cs)).map fun p => (string p.1, p.2)
    else if c = '[' then
      match room with
      | 0 => none
      | room + 1 => (readItems fuel room cs).map fun p => (array false p.1, p.2)
    else if c = '{' then
      match room with
      | 0 => none
      | room + 1 =>
        match skipBlanks cs with
        | '}' :: rest => some (table .inline [], rest)
        | rest => (readPairs fuel room [] rest).map fun p => (table .inline p.1, p.2)
    else if c = 't' then (readWord "true" (c :: cs)).map fun rest => (boolean true, rest)
    else if c = 'f' then (readWord "false" (c :: cs)).map fun rest => (boolean false, rest)
    else readNumeral (c :: cs)
/-- The items of an array up to and with the closing bracket. -/
def readItems : (fuel room : Nat) → List Char → Option (List Toml × List Char)
  | 0, _, _ => none
  | fuel + 1, room, cs =>
    match skipFiller (cs.length + 1) cs with
    | none => none
    | some (']' :: rest) => some ([], rest)
    | some start =>
      match readValue fuel room start with
      | none => none
      | some (v, rest) =>
        match skipFiller (rest.length + 1) rest with
        | some (']' :: rest) => some ([v], rest)
        | some (',' :: rest) => (readItems fuel room rest).map fun p => (v :: p.1, p.2)
        | _ => none
/-- One or more keys with values up to and with the closing brace, added to a table's entries. -/
def readPairs : (fuel room : Nat) → Entries → List Char → Option (Entries × List Char)
  | 0, _, _, _ => none
  | fuel + 1, room, es, cs =>
    match readKey cs with
    | some (key, '=' :: rest) =>
      match readValue fuel room (skipBlanks rest) with
      | none => none
      | some (v, rest) =>
        match insertKey v true key es with
        | none => none
        | some es =>
          match skipBlanks rest with
          | '}' :: rest => some (es, rest)
          | ',' :: rest => readPairs fuel room es rest
          | _ => none
    | _ => none
end

/-! ## Documents -/

/-- What the lines read so far have built: the document, and the path of the last header. -/
structure Draft where
  entries : Entries := []
  header : List String := []

/-- A header `[key]` or `[[key]]`, after its first bracket. -/
def readHeader (d : Draft) (cs : List Char) : Option (Draft × List Char) :=
  match cs with
  | '[' :: cs =>
    match readKey cs with
    | some (key, ']' :: ']' :: rest) =>
      (openItem key d.entries).map fun es => ({ entries := es, header := key }, rest)
    | _ => none
  | cs =>
    match readKey cs with
    | some (key, ']' :: rest) =>
      (openTable key d.entries).map fun es => ({ entries := es, header := key }, rest)
    | _ => none

/-- A key with a value. -/
def readPair (d : Draft) (cs : List Char) : Option (Draft × List Char) :=
  match readKey cs with
  | some (key, '=' :: rest) =>
    match readValue (2 * rest.length + 2) maxDepth (skipBlanks rest) with
    | none => none
    | some (v, rest) =>
      (inTable d.header (insertKey v true key) d.entries).map fun es =>
        ({ d with entries := es }, rest)
  | _ => none

/-- Lines up to the end of the text. -/
def readLines : Nat → Draft → List Char → Option Draft
  | 0, _, _ => none
  | fuel + 1, d, cs =>
    match skipBlanks cs with
    | [] => some d
    | c :: rest =>
      if c = '#' || c = '\n' || c = '\r' then
        (readTrailing (c :: rest)).bind (readLines fuel d)
      else
        match (if c = '[' then readHeader d rest else readPair d (c :: rest)) with
        | none => none
        | some (d, rest) => (readTrailing rest).bind (readLines fuel d)

/-- A byte order mark at the start of a text is no part of it. -/
def dropMark : List Char → List Char
  | '\uFEFF' :: cs => cs
  | cs => cs

/-- The table of a document, unless the text is malformed. -/
def read? (text : String) : Option Entries :=
  let cs := dropMark text.toList
  (readLines (cs.length + 1) {} cs).map (·.entries)

end DocTree.Toml
