import DocTree.Event
import DocTree.Text.Escape

/-!
# The line of an event

An event is written as its name and its data in brackets. Words and the names and values of
parameters are escaped to ASCII; all other data stands as it is.
-/

namespace DocTree

namespace Event

open Text (escape)

def bracketed (text : String) : String := " [" ++ text ++ "]"

/-- Parameters after the other data; nothing when there are none. -/
def parameterText (ps : StringMap) : String :=
  if ps.isEmpty then ""
  else
    bracketed <| String.join <| ps.entries.map fun e =>
      "[" ++ escape e.1 ++ "]=[" ++ escape e.2 ++ "]"

def boolText (b : Bool) : String := Reference.boolText b

/-- A link or an image. -/
def targetText (name : String) (t : Target) (ps : StringMap) : String :=
  name ++ bracketed t.reference.display ++ bracketed (boolText t.freeStanding) ++ parameterText ps

/-- A macro call or marker; here names and values of parameters are not escaped. -/
def callText (name : String) (call : Call) (ps : StringMap) : String :=
  name ++ (if call.inline then "Inline" else "Standalone") ++ bracketed call.name
    ++ bracketed ("|".intercalate (ps.entries.map fun e => e.1 ++ "=" ++ e.2))
    ++ (call.content.map bracketed).getD ""

/-- The data of a container after the name of one of its events. Items, terms, descriptions and
quoted lines show nothing but the name. -/
def containerText (name : String) (o : Opening) : String :=
  match o.kind with
  | .document m | .metadata m => name ++ parameterText m
  | .header level id =>
    name ++ bracketed (level.display ++ ", " ++ id.getD "null") ++ parameterText o.parameters
  | .list style => name ++ bracketed style.display ++ parameterText o.parameters
  | .format style => name ++ bracketed style.display ++ parameterText o.parameters
  | .link t => targetText name t o.parameters
  | .macroMarker call => callText name call o.parameters
  | .listItem | .definitionTerm | .definitionDescription | .quotationLine => name
  | _ => name ++ parameterText o.parameters

def leafText (name : String) (a : Atom) : String :=
  match a.kind with
  | .image t => targetText name t a.parameters
  | .macroCall call => callText name call a.parameters
  | .word text => name ++ bracketed (escape text)
  | .specialSymbol c => name ++ bracketed (String.singleton c)
  | .id n => name ++ bracketed n
  | .emptyLines n => name ++ bracketed n.toNat.repr
  | .verbatim content inline =>
    name ++ bracketed content ++ bracketed (boolText inline) ++ parameterText a.parameters
  | .rawText content dialect => name ++ bracketed content ++ bracketed dialect.idText
  | .horizontalLine => name ++ parameterText a.parameters
  | .space | .newLine => name

/-- The line of an event, without a line end. -/
def line (e : Event) : String :=
  match e with
  | enter o | exit o => containerText e.kind.name o
  | leaf a => leafText e.kind.name a

/-- The events after whose line no line end is written. -/
def endsDocument : Event → Bool
  | exit ⟨.document _, _, _⟩ => true
  | _ => false

end Event

end DocTree
