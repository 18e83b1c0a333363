import DocTree.Block
import DocTree.Json.Record
import DocTree.Json.Writer

/-!
# Written trees

A tree is written as a JSON object for each block: its type, the data of its kind, its children and
its parameters. Members that hold their default are left out where that default is "nothing".

A reader takes the members in any order and passes over names it does not know. It refuses a name of
its own that occurs twice. A type may also be given by its number, a reference by the list of its
parts, and a keyword by an object with that one name.
-/

namespace DocTree

/-! ## Maps, keywords and dialects -/

namespace StringMap

def toJson (m : StringMap) : Json := .object (m.entries.map fun e => (e.1, .string e.2))

/-- The entries of an object whose values are texts. -/
def entriesOfMembers? : List (String × Json) → Option (List (String × String))
  | [] => some []
  | (k, .string v) :: ms => (entriesOfMembers? ms).map ((k, v) :: ·)
  | _ => none

/-- Of a name that occurs more than once the last value counts. -/
def ofJson? : Json → Option StringMap
  | .object ms => (entriesOfMembers? ms).map KeyMap.ofList
  | _ => none

end StringMap

/-- A keyword: a text, or an object with the keyword as its one name and nothing below it. -/
def keyword? (isNothing : Json → Bool) : Json → Option String
  | .string s => some s
  | .object [(s, v)] => if isNothing v then some s else none
  | _ => none

def isNull : Json → Bool
  | .null => true
  | _ => false

/-- Inside a block an empty object is also nothing. -/
def isNullOrEmpty : Json → Bool
  | .null | .object [] => true
  | _ => false

def Dialect.ofJson? : Json → Option Dialect
  | .string s => (parse s).toOption
  | _ => none

def HeaderLevel.ofJson? (j : Json) : Option HeaderLevel :=
  j.word?.bind fun w => (ofNat w.toNat).toOption

def TextStyle.ofJson? (isNothing : Json → Bool) (j : Json) : Option TextStyle :=
  (keyword? isNothing j).bind ofKeyword?

def ListStyle.ofJson? (isNothing : Json → Bool) (j : Json) : Option ListStyle :=
  (keyword? isNothing j).bind ofKeyword?

/-- A text of exactly one character. -/
def symbolOfJson? : Json → Option Char
  | .string s =>
    match s.toList with
    | [c] => some c
    | _ => none
  | _ => none

/-! ## References -/

namespace Reference

def toJson (r : Reference) : Json :=
  .object <|
    [("type", .string r.kind.scheme), ("typed", .bool r.typed), ("reference", .string r.text)]
      ++ (if r.bases.isEmpty then []
        else [("base_references", .array (r.bases.map Json.string))])
      ++ (if r.parameters.isEmpty then [] else [("parameters", StringMap.toJson r.parameters)])

def kindOfJson? (j : Json) : Option ResourceKind := j.string?.map ResourceKind.ofScheme

def basesOfJson? (j : Json) : Option (List String) := j.array?.bind fun xs => xs.mapM Json.string?

/-- A reference from what is said about each of its parts. -/
def ofFields? (kind typed text bases parameters : Json.Field) : Option Reference := do
  let kind ← kind.required kindOfJson?
  let typed ← typed.optional true Json.bool?
  let text ← text.required Json.string?
  let bases ← bases.optional [] basesOfJson?
  let parameters ← parameters.optional ∅ StringMap.ofJson?
  return { kind, typed, text, bases, parameters }

/-- The part at an index of a list of parts. -/
def part (xs : List Json) (index : Nat) : Json.Field :=
  match xs[index]? with
  | some v => .single v
  | none => .missing

def ofJson? : Json → Option Reference
  | .object ms =>
    ofFields? (Json.field "type" ms) (Json.field "typed" ms) (Json.field "reference" ms)
      (Json.field "base_references" ms) (Json.field "parameters" ms)
  | .array xs =>
    if xs.length ≤ 5 then ofFields? (part xs 0) (part xs 1) (part xs 2) (part xs 3) (part xs 4)
    else none
  | _ => none

/-- The compact text of a reference. -/
def jsonText (r : Reference) : String := r.toJson.text

/-- The names of the parts. -/
def partNames : List String := ["type", "typed", "reference", "base_references", "parameters"]

/-- The reference of a text. -/
def read? (source : String) : Option Reference := (Json.readRecord? partNames source).bind ofJson?

end Reference

/-! ## Kinds -/

namespace Kind

/-- A member that is left out when there is nothing to say. -/
def nullable (name : String) : Option String → List (String × Json)
  | none => []
  | some s => [(name, .string s)]

def targetMembers (t : Target) : List (String × Json) :=
  [("reference", t.reference.toJson), ("free_standing", .bool t.freeStanding)]

def callMembers (nameKey : String) (c : Call) : List (String × Json) :=
  (nameKey, .string c.name) :: nullable "content" c.content ++ [("inline", .bool c.inline)]

def containerMembers : Container → List (String × Json)
  | .document m | .metadata m => [("meta_data", StringMap.toJson m)]
  | .header level id => ("level", .ofNat level.number) :: nullable "id" id
  | .list style => [("list_type", .string style.keyword)]
  | .format style => [("format", .string style.keyword)]
  | .link t => targetMembers t
  | .macroMarker c => callMembers "name" c
  | _ => []

def leafMembers : Leaf → List (String × Json)
  | .image t => targetMembers t
  | .macroCall c => callMembers "id" c
  | .word text => [("text", .string text)]
  | .specialSymbol c => [("symbol", .string (String.singleton c))]
  | .rawText content dialect =>
    [("content", .string content), ("syntax", .string dialect.idText)]
  | .verbatim content inline => [("content", .string content), ("inline", .bool inline)]
  | .id name => [("name", .string name)]
  | .emptyLines count => [("count", .ofNat count.toNat)]
  | .space | .newLine | .horizontalLine => []

/-- The members that hold the data of a kind. -/
def dataMembers : Kind → List (String × Json)
  | container c => containerMembers c
  | leaf l => leafMembers l

def targetOfMembers? (ms : List (String × Json)) : Option Target := do
  let reference ← (Json.field "reference" ms).required Reference.ofJson?
  let freeStanding ← (Json.field "free_standing" ms).optional false Json.bool?
  return { reference, freeStanding }

def callOfMembers? (nameKey : String) (ms : List (String × Json)) : Option Call := do
  let name ← (Json.field nameKey ms).required Json.string?
  let content ← (Json.field "content" ms).optional none Json.nullableString?
  let inline ← (Json.field "inline" ms).optional false Json.bool?
  return { name, content, inline }

def containerOfMembers? (ms : List (String × Json)) : ContainerTag → Option Container
  | .document => ((Json.field "meta_data" ms).optional ∅ StringMap.ofJson?).map .document
  | .metadata => ((Json.field "meta_data" ms).optional ∅ StringMap.ofJson?).map .metadata
  | .sectionBlock => some .sectionBlock
  | .header => do
    let level ← (Json.field "level" ms).required HeaderLevel.ofJson?
    let id ← (Json.field "id" ms).optional none Json.nullableString?
    return .header level id
  | .paragraph => some .paragraph
  | .list => ((Json.field "list_type" ms).required (ListStyle.ofJson? isNullOrEmpty)).map .list
  | .listItem => some .listItem
  | .definitionList => some .definitionList
  | .definitionTerm => some .definitionTerm
  | .definitionDescription => some .definitionDescription
  | .table => some .table
  | .tableRow => some .tableRow
  | .tableCell => some .tableCell
  | .tableHeadCell => some .tableHeadCell
  | .quotation => some .quotation
  | .quotationLine => some .quotationLine
  | .format => ((Json.field "format" ms).required (TextStyle.ofJson? isNullOrEmpty)).map .format
  | .group => some .group
  | .link => (targetOfMembers? ms).map .link
  | .macroMarker => (callOfMembers? "name" ms).map .macroMarker

def leafOfMembers? (ms : List (String × Json)) : LeafTag → Option Leaf
  | .image => (targetOfMembers? ms).map .image
  | .macroCall => (callOfMembers? "id" ms).map .macroCall
  | .word => ((Json.field "text" ms).required Json.string?).map .word
  | .space => some .space
  | .specialSymbol => ((Json.field "symbol" ms).required symbolOfJson?).map .specialSymbol
  | .newLine => some .newLine
  | .rawText => do
    let content ← (Json.field "content" ms).required Json.string?
    let dialect ← (Json.field "syntax" ms).required Dialect.ofJson?
    return .rawText content dialect
  | .verbatim => do
    let content ← (Json.field "content" ms).required Json.string?
    let inline ← (Json.field "inline" ms).optional false Json.bool?
    return .verbatim content inline
  | .horizontalLine => some .horizontalLine
  | .id => ((Json.field "name" ms).required Json.string?).map .id
  | .emptyLines => ((Json.field "count" ms).required Json.word?).map .emptyLines

/-- A type is given by its keyword or by its number. -/
def tagOfJson? : Json → Option Tag
  | .string s => Tag.ofKeyword? s
  | .number n => n.word?.bind fun w => Tag.ofIndex? w.toNat
  | _ => none

def ofMembers? (ms : List (String × Json)) : Option Kind := do
  match ← (Json.field "type" ms).required tagOfJson? with
  | .container t => (containerOfMembers? ms t).map .container
  | .leaf t => (leafOfMembers? ms t).map .leaf

end Kind

/-! ## Blocks -/

namespace Block

/-- The member that holds parameters, if there are any. -/
def parameterMembers (ps : StringMap) : List (String × Json) :=
  if ps.isEmpty then [] else [("parameters", StringMap.toJson ps)]

mutual
def toJson : Block → Json
  | ⟨k, cs, ps⟩ =>
    .object <| ("type", .string k.tag.keyword) :: k.dataMembers
      ++ (match cs with
        | [] => []
        | c :: cs => [("children", .array (c.toJson :: listToJson cs))])
      ++ parameterMembers ps
def listToJson : List Block → List Json
  | [] => []
  | b :: bs => b.toJson :: listToJson bs
end

/-- The compact text of a tree. -/
def jsonText (b : Block) : String := b.toJson.text

mutual
def ofJson? : Json → Option Block
  | .object ms =>
    match Kind.ofMembers? ms, childrenOfMembers? ms,
      (Json.field "parameters" ms).optional ∅ StringMap.ofJson? with
    | some kind, some children, some parameters => some ⟨kind, children.getD [], parameters⟩
    | _, _, _ => none
  | _ => none
def listOfJson? : List Json → Option (List Block)
  | [] => some []
  | j :: js =>
    match ofJson? j, listOfJson? js with
    | some b, some bs => some (b :: bs)
    | _, _ => none
/-- The children of a block, nothing if no member holds any; no two members may. -/
def childrenOfMembers? : List (String × Json) → Option (Option (List Block))
  | [] => some none
  | (k, v) :: ms =>
    match childrenOfMembers? ms with
    | none => none
    | some found =>
      if k = "children" then
        match found, itemsOfJson? v with
        | none, some bs => some (some bs)
        | _, _ => none
      else some found
/-- The blocks of an array. -/
def itemsOfJson? : Json → Option (List Block)
  | .array js => listOfJson? js
  | _ => none
end

/-- Reads a tree as it stands: nothing is added and its validity is not looked at. -/
def read? (source : String) : Option Block := (Json.read? source).bind ofJson?

end Block

end DocTree
