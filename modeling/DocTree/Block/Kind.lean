import DocTree.Dialect
import DocTree.Reference

/-!
# Kinds of block

A kind is either a container, whose block encloses other blocks, or a leaf. A kind holds the data of
its block apart from children and parameters; its tag is the kind without that data.
-/

namespace DocTree

/-! ## Data of single kinds -/

/-- The look of a span of text. -/
inductive TextStyle
  | unstyled | bold | italic | underlined | strikedout | superscript | subscript | monospace
deriving DecidableEq, Repr, Inhabited

namespace TextStyle

def all : List TextStyle :=
  [unstyled, bold, italic, underlined, strikedout, superscript, subscript, monospace]

/-- The keyword in a written tree. -/
def keyword : TextStyle → String
  | unstyled => "none"
  | bold => "bold"
  | italic => "italic"
  | underlined => "underlined"
  | strikedout => "strikedout"
  | superscript => "superscript"
  | subscript => "subscript"
  | monospace => "monospace"

/-- The form for readers. -/
def display : TextStyle → String
  | unstyled => "NONE"
  | bold => "BOLD"
  | italic => "ITALIC"
  | underlined => "UNDERLINED"
  | strikedout => "STRIKEDOUT"
  | superscript => "SUPERSCRIPT"
  | subscript => "SUBSCRIPT"
  | monospace => "MONOSPACE"

def ofKeyword? (s : String) : Option TextStyle := all.find? fun t => t.keyword == s

end TextStyle

/-- How the items of a list are marked. -/
inductive ListStyle
  | bulleted | numbered
deriving DecidableEq, Repr, Inhabited

namespace ListStyle

def all : List ListStyle := [bulleted, numbered]

def keyword : ListStyle → String
  | bulleted => "bulleted"
  | numbered => "numbered"

def display : ListStyle → String
  | bulleted => "BULLETED"
  | numbered => "NUMBERED"

def ofKeyword? (s : String) : Option ListStyle := all.find? fun t => t.keyword == s

end ListStyle

/-- The level of a header, 1 being the highest. -/
structure HeaderLevel where
  number : Nat
  in_range : 1 ≤ number ∧ number ≤ 6
deriving DecidableEq

instance : Inhabited HeaderLevel := ⟨⟨1, by decide⟩⟩

/-- A number that is no header level. -/
structure HeaderLevelError where
  number : Nat
deriving DecidableEq, Repr

def HeaderLevelError.message (e : HeaderLevelError) : String :=
  "Invalid header level [" ++ e.number.repr ++ "]: expected a value between 1 and 6"

namespace HeaderLevel

def ofNat (n : Nat) : Except HeaderLevelError HeaderLevel :=
  if h : 1 ≤ n ∧ n ≤ 6 then .ok ⟨n, h⟩ else .error ⟨n⟩

def display (l : HeaderLevel) : String := "LEVEL" ++ l.number.repr

end HeaderLevel

/-- What a link or an image shows. -/
structure Target where
  reference : Reference
  /-- The reference itself stands in the text, without markup around it. -/
  freeStanding : Bool := false
deriving DecidableEq, Inhabited

/-- A macro call, or the marker left by one: the name of the macro, its content and whether it
stands inside a line. -/
structure Call where
  name : String
  content : Option String := none
  inline : Bool := false
deriving DecidableEq, Repr, Inhabited

/-! ## Containers -/

inductive Container
  | document (metadata : StringMap)
  | metadata (metadata : StringMap)
  | sectionBlock
  | header (level : HeaderLevel) (id : Option String)
  | paragraph
  | list (style : ListStyle)
  | listItem
  | definitionList
  | definitionTerm
  | definitionDescription
  | table
  | tableRow
  | tableCell
  | tableHeadCell
  | quotation
  | quotationLine
  | format (style : TextStyle)
  | group
  | link (target : Target)
  | macroMarker (call : Call)
deriving DecidableEq, Inhabited

/-- A container kind without its data. -/
inductive ContainerTag
  | document | metadata | sectionBlock | header | paragraph | list | listItem | definitionList
  | definitionTerm | definitionDescription | table | tableRow | tableCell | tableHeadCell
  | quotation | quotationLine | format | group | link | macroMarker
deriving DecidableEq, Repr, Inhabited

namespace ContainerTag

/-- In the order in which the kinds are numbered. -/
def all : List ContainerTag :=
  [document, metadata, sectionBlock, header, paragraph, list, listItem, definitionList,
    definitionTerm, definitionDescription, table, tableRow, tableCell, tableHeadCell, quotation,
    quotationLine, format, group, link, macroMarker]

/-- The name in capitalised words. -/
def title : ContainerTag → String
  | document => "Document"
  | metadata => "MetaData"
  | sectionBlock => "Section"
  | header => "Header"
  | paragraph => "Paragraph"
  | list => "List"
  | listItem => "ListItem"
  | definitionList => "DefinitionList"
  | definitionTerm => "DefinitionTerm"
  | definitionDescription => "DefinitionDescription"
  | table => "Table"
  | tableRow => "TableRow"
  | tableCell => "TableCell"
  | tableHeadCell => "TableHeadCell"
  | quotation => "Quotation"
  | quotationLine => "QuotationLine"
  | format => "Format"
  | group => "Group"
  | link => "Link"
  | macroMarker => "MacroMarker"

/-- The keyword in a written tree. -/
def keyword : ContainerTag → String
  | document => "document"
  | metadata => "meta_data"
  | sectionBlock => "section"
  | header => "header"
  | paragraph => "paragraph"
  | list => "list"
  | listItem => "list_item"
  | definitionList => "definition_list"
  | definitionTerm => "definition_term"
  | definitionDescription => "definition_description"
  | table => "table"
  | tableRow => "table_row"
  | tableCell => "table_cell"
  | tableHeadCell => "table_head_cell"
  | quotation => "quotation"
  | quotationLine => "quotation_line"
  | format => "format"
  | group => "group"
  | link => "link"
  | macroMarker => "macro_marker"

/-- Events carry the parameters of every container but documents and metadata scopes. -/
def emitsParameters : ContainerTag → Bool
  | document | metadata => false
  | _ => true

end ContainerTag

def Container.tag : Container → ContainerTag
  | document _ => .document
  | metadata _ => .metadata
  | sectionBlock => .sectionBlock
  | header .. => .header
  | paragraph => .paragraph
  | list _ => .list
  | listItem => .listItem
  | definitionList => .definitionList
  | definitionTerm => .definitionTerm
  | definitionDescription => .definitionDescription
  | table => .table
  | tableRow => .tableRow
  | tableCell => .tableCell
  | tableHeadCell => .tableHeadCell
  | quotation => .quotation
  | quotationLine => .quotationLine
  | format _ => .format
  | group => .group
  | link _ => .link
  | macroMarker _ => .macroMarker

/-! ## Leaves -/

inductive Leaf
  | image (target : Target)
  | macroCall (call : Call)
  | word (text : String)
  | space
  | specialSymbol (symbol : Char)
  | newLine
  | rawText (content : String) (dialect : Dialect)
  | verbatim (content : String) (inline : Bool)
  | horizontalLine
  | id (name : String)
  | emptyLines (count : UInt64)
deriving DecidableEq, Inhabited

/-- A leaf kind without its data. -/
inductive LeafTag
  | image | macroCall | word | space | specialSymbol | newLine | rawText | verbatim
  | horizontalLine | id | emptyLines
deriving DecidableEq, Repr, Inhabited

namespace LeafTag

/-- In the order in which the kinds are numbered, after the containers. -/
def all : List LeafTag :=
  [image, macroCall, word, space, specialSymbol, newLine, rawText, verbatim, horizontalLine, id,
    emptyLines]

def title : LeafTag → String
  | image => "Image"
  | macroCall => "Macro"
  | word => "Word"
  | space => "Space"
  | specialSymbol => "SpecialSymbol"
  | newLine => "NewLine"
  | rawText => "RawText"
  | verbatim => "Verbatim"
  | horizontalLine => "HorizontalLine"
  | id => "Id"
  | emptyLines => "EmptyLines"

def keyword : LeafTag → String
  | image => "image"
  | macroCall => "macro"
  | word => "word"
  | space => "space"
  | specialSymbol => "special_symbol"
  | newLine => "new_line"
  | rawText => "raw_text"
  | verbatim => "verbatim"
  | horizontalLine => "horizontal_line"
  | id => "id"
  | emptyLines => "empty_lines"

/-- Events carry the parameters of images, macro calls, verbatim text and rulers. -/
def emitsParameters : LeafTag → Bool
  | image | macroCall | verbatim | horizontalLine => true
  | _ => false

end LeafTag

def Leaf.tag : Leaf → LeafTag
  | image _ => .image
  | macroCall _ => .macroCall
  | word _ => .word
  | space => .space
  | specialSymbol _ => .specialSymbol
  | newLine => .newLine
  | rawText .. => .rawText
  | verbatim .. => .verbatim
  | horizontalLine => .horizontalLine
  | id _ => .id
  | emptyLines _ => .emptyLines

/-! ## Both together -/

inductive Kind
  | container (c : Container)
  | leaf (l : Leaf)
deriving DecidableEq, Inhabited

inductive Tag
  | container (t : ContainerTag)
  | leaf (t : LeafTag)
deriving DecidableEq, Repr, Inhabited

def Kind.tag : Kind → Tag
  | container c => .container c.tag
  | leaf l => .leaf l.tag

namespace Tag

/-- Every tag at its number: containers first. -/
def all : List Tag := ContainerTag.all.map container ++ LeafTag.all.map leaf

def title : Tag → String
  | container t => t.title
  | leaf t => t.title

def keyword : Tag → String
  | container t => t.keyword
  | leaf t => t.keyword

def isContainer : Tag → Bool
  | container _ => true
  | leaf _ => false

def emitsParameters : Tag → Bool
  | container t => t.emitsParameters
  | leaf t => t.emitsParameters

def ofKeyword? (s : String) : Option Tag := all.find? fun t => t.keyword == s

def ofTitle? (s : String) : Option Tag := all.find? fun t => t.title == s

/-- The tag with a number. -/
def ofIndex? (n : Nat) : Option Tag := all[n]?

theorem mem_all (t : Tag) : t ∈ all := by
  cases t with
  | container t => cases t <;> decide
  | leaf t => cases t <;> decide

end Tag

end DocTree
