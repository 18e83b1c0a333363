import DocTree.Event

/-!
# Where an event stands

The structure around the current event: open lists with the index of their current item, open
paragraphs, links and so on, the row and cell of a table, and the kind of the event before. A block
counts as open during its own enter and exit events.
-/

namespace DocTree

/-- Open blocks by sort. Lists are given by the index of their current item, innermost first; there
is no index before the first item. -/
structure Surroundings where
  previous : Option EventKind := none
  lists : List (Option Nat) := []
  definitions : List (Option Nat) := []
  quotations : List (Option Nat) := []
  paragraphs : Nat := 0
  headers : Nat := 0
  links : Nat := 0
  markers : Nat := 0
  formats : Nat := 0
  terms : Nat := 0
  descriptions : Nat := 0
  tables : Nat := 0
  cells : Nat := 0
  /-- The index of the row begun last. -/
  row : Option Nat := none
  /-- The index in its row of the cell begun last. -/
  cell : Option Nat := none
deriving DecidableEq, Repr, Inhabited

namespace Surroundings

/-- The index after an index: the first one if there was none. -/
def nextIndex : Option Nat → Option Nat
  | none => some 0
  | some i => some (i + 1)

/-- Count an item of the innermost list. -/
def nextItem : List (Option Nat) → List (Option Nat)
  | [] => []
  | i :: is => nextIndex i :: is

def currentItem (indices : List (Option Nat)) : Option Nat := indices.head?.join

/-- Record that a container is entered. -/
def enter (s : Surroundings) : ContainerTag → Surroundings
  | .list => { s with lists := none :: s.lists }
  | .listItem => { s with lists := nextItem s.lists }
  | .definitionList => { s with definitions := none :: s.definitions }
  | .definitionTerm => { s with definitions := nextItem s.definitions, terms := s.terms + 1 }
  | .definitionDescription =>
    { s with definitions := nextItem s.definitions, descriptions := s.descriptions + 1 }
  | .quotation => { s with quotations := none :: s.quotations }
  | .quotationLine => { s with quotations := nextItem s.quotations }
  | .paragraph => { s with paragraphs := s.paragraphs + 1 }
  | .header => { s with headers := s.headers + 1 }
  | .link => { s with links := s.links + 1 }
  | .macroMarker => { s with markers := s.markers + 1 }
  | .format => { s with formats := s.formats + 1 }
  | .table => { s with tables := s.tables + 1, row := none }
  | .tableRow => { s with row := nextIndex s.row, cell := none }
  | .tableCell | .tableHeadCell => { s with cells := s.cells + 1, cell := nextIndex s.cell }
  | .document | .metadata | .sectionBlock | .group => s

/-- Record that a container is left; counts stop at zero. -/
def leave (s : Surroundings) : ContainerTag → Surroundings
  | .list => { s with lists := s.lists.tail }
  | .definitionList => { s with definitions := s.definitions.tail }
  | .definitionTerm => { s with terms := s.terms - 1 }
  | .definitionDescription => { s with descriptions := s.descriptions - 1 }
  | .quotation => { s with quotations := s.quotations.tail }
  | .paragraph => { s with paragraphs := s.paragraphs - 1 }
  | .header => { s with headers := s.headers - 1 }
  | .link => { s with links := s.links - 1 }
  | .macroMarker => { s with markers := s.markers - 1 }
  | .format => { s with formats := s.formats - 1 }
  | .table => { s with tables := s.tables - 1, row := none, cell := none }
  | .tableCell | .tableHeadCell => { s with cells := s.cells - 1 }
  | .document | .metadata | .sectionBlock | .group | .listItem | .quotationLine | .tableRow => s

/-- The change before an event goes on. -/
def before (s : Surroundings) : Event → Surroundings
  | .enter o => s.enter o.kind.tag
  | _ => s

/-- The change after an event has gone on, whatever became of it. -/
def after (s : Surroundings) (e : Event) : Surroundings :=
  let left := match e with
    | .exit o => s.leave o.kind.tag
    | _ => s
  { left with previous := some e.kind }

/-! ## Questions -/

def listDepth (s : Surroundings) : Nat := s.lists.length

def listItemIndex (s : Surroundings) : Option Nat := currentItem s.lists

def definitionDepth (s : Surroundings) : Nat := s.definitions.length

/-- Terms and descriptions are counted together. -/
def definitionItemIndex (s : Surroundings) : Option Nat := currentItem s.definitions

def quotationDepth (s : Surroundings) : Nat := s.quotations.length

def quotationLineIndex (s : Surroundings) : Option Nat := currentItem s.quotations

def inList (s : Surroundings) : Bool := 0 < s.listDepth

def inDefinitionList (s : Surroundings) : Bool := 0 < s.definitionDepth

def inTerm (s : Surroundings) : Bool := 0 < s.terms

def inDescription (s : Surroundings) : Bool := 0 < s.descriptions

def inQuotation (s : Surroundings) : Bool := 0 < s.quotationDepth

def inParagraph (s : Surroundings) : Bool := 0 < s.paragraphs

def inHeader (s : Surroundings) : Bool := 0 < s.headers

def inLink (s : Surroundings) : Bool := 0 < s.links

def inMarker (s : Surroundings) : Bool := 0 < s.markers

def inFormat (s : Surroundings) : Bool := 0 < s.formats

def inTable (s : Surroundings) : Bool := 0 < s.tables

def inCell (s : Surroundings) : Bool := 0 < s.cells

/-- Content inside a line is allowed here. -/
def isInline (s : Surroundings) : Bool :=
  s.inParagraph || s.inHeader || s.inTerm || s.quotationLineIndex.isSome || s.inCell
    || s.listItemIndex.isSome

end Surroundings

end DocTree
