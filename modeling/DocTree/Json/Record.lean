import DocTree.Json.Reader

/-!
# Reading records from JSON

A record is an object of which only the members of some names count. The others are passed over:
their values need the form of a value, but code units in their texts need not make characters, their
numbers may be of any size, and they may be nested to any depth.
-/

namespace DocTree.Json

/-! ## Passing over values -/

/-- The rest after a text, whose opening quote is taken already. -/
def skipText : Nat → List Char → Option (List Char)
  | 0, _ => none
  | _, [] => none
  | fuel + 1, c :: cs =>
    if c = '"' then some cs
    else if c = '\\' then
      match cs with
      | [] => none
      | 'u' :: rest => (readUnit rest).bind fun p => skipText fuel p.2
      | d :: rest => (shortEscape? d).bind fun _ => skipText fuel rest
    else if c.toNat < 0x20 then none
    else skipText fuel cs

/-- The rest after a number. -/
def skipNumber : List Char → Option (List Char)
  | '-' :: cs => (readMagnitude cs).map (·.2)
  | cs => (readMagnitude cs).map (·.2)

/-- The rest after a name and its colon, in an object. -/
def skipName (cs : List Char) : Option (List Char) :=
  match skipSpace cs with
  | '"' :: rest =>
    match (skipText (rest.length + 1) rest).map skipSpace with
    | some (':' :: rest) => some rest
    | _ => none
  | _ => none

/-- An array or object that has been opened. -/
inductive Enclosure
  | array
  | object
deriving DecidableEq, Repr

mutual
/-- The rest after a value and after all that encloses it, innermost first. -/
def skipValue : Nat → List Enclosure → List Char → Option (List Char)
  | 0, _, _ => none
  | fuel + 1, outer, cs =>
    match skipSpace cs with
    | [] => none
    | '"' :: rest => (skipText (rest.length + 1) rest).bind (skipEnclosures fuel outer)
    | '[' :: rest =>
      match skipSpace rest with
      | ']' :: rest => skipEnclosures fuel outer rest
      | rest => skipValue fuel (.array :: outer) rest
    | '{' :: rest =>
      match skipSpace rest with
      | '}' :: rest => skipEnclosures fuel outer rest
      | rest => (skipName rest).bind (skipValue fuel (.object :: outer))
    | 'n' :: rest => (expect ['u', 'l', 'l'] rest).bind (skipEnclosures fuel outer)
    | 't' :: rest => (expect ['r', 'u', 'e'] rest).bind (skipEnclosures fuel outer)
    | 'f' :: rest => (expect ['a', 'l', 's', 'e'] rest).bind (skipEnclosures fuel outer)
    | rest => (skipNumber rest).bind (skipEnclosures fuel outer)
/-- The rest after all that encloses the value just passed, with the values that follow it there. -/
def skipEnclosures : Nat → List Enclosure → List Char → Option (List Char)
  | 0, _, _ => none
  | _, [], cs => some cs
  | fuel + 1, .array :: outer, cs =>
    match skipSpace cs with
    | ',' :: rest => skipValue fuel (.array :: outer) rest
    | ']' :: rest => skipEnclosures fuel outer rest
    | _ => none
  | fuel + 1, .object :: outer, cs =>
    match skipSpace cs with
    | ',' :: rest => (skipName rest).bind (skipValue fuel (.object :: outer))
    | '}' :: rest => skipEnclosures fuel outer rest
    | _ => none
end

/-! ## Records -/

/-- The value of a member that counts, or nothing for one that is passed over. -/
def readMember? (names : List String) (room : Nat) (name : String) (cs : List Char) :
    Option (Option Json × List Char) :=
  let fuel := 2 * cs.length + 2
  if name ∈ names then (readValue fuel room cs).map fun p => (some p.1, p.2)
  else (skipValue fuel [] cs).map fun rest => (none, rest)

/-- One or more members up to and with the closing brace, of which those that count are kept. -/
def readRecordMembers (names : List String) (room : Nat) :
    Nat → List Char → Option (List (String × Json) × List Char)
  | 0, _ => none
  | fuel + 1, cs =>
    match skipSpace cs with
    | '"' :: rest =>
      match readChars (rest.length + 1) rest with
      | none => none
      | some (chars, rest) =>
        match skipSpace rest with
        | ':' :: rest =>
          let name := String.ofList chars
          match readMember? names room name rest with
          | none => none
          | some (value?, rest) =>
            let kept := (value?.map fun v => (name, v)).toList
            match skipSpace rest with
            | '}' :: rest => some (kept, rest)
            | ',' :: rest =>
              (readRecordMembers names room fuel rest).map fun p => (kept ++ p.1, p.2)
            | _ => none
        | _ => none
    | _ => none

/-- The value of a text. If it is an object, only members of the given names count. -/
def readRecord? (names : List String) (s : String) : Option Json :=
  match skipSpace s.toList with
  | '{' :: cs =>
    let read :=
      match skipSpace cs with
      | '}' :: rest => some ([], rest)
      | rest => readRecordMembers names (maxDepth - 1) (rest.length + 1) rest
    match read with
    | some (ms, rest) => if (skipSpace rest).isEmpty then some (.object ms) else none
    | none => none
  | cs => readWithin maxDepth cs

end DocTree.Json
