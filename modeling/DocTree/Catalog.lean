import DocTree.KeyMap
import DocTree.Source

/-!
# Parsers and renderers by dialect

A parser makes a document from a text of one dialect, a renderer a text of one dialect from a tree.
Catalogs find them by the written form of a dialect.
-/

namespace DocTree

structure Parser where
  dialect : Dialect
  parse : String → Except SourceError Block

structure Renderer where
  dialect : Dialect
  render : Block → String

/-- The parser of written trees. -/
def Parser.json : Parser := { dialect := .json, parse := Block.ofSource }

/-- The renderer of event lines. -/
def Renderer.event : Renderer := { dialect := .event, render := Block.eventText }

/-- A dialect that a catalog does not know. -/
inductive CatalogError
  | noParser (id : String)
  | noRenderer (id : String)
deriving DecidableEq, Repr

def CatalogError.message : CatalogError → String
  | .noParser id => "No parser registered for syntax [" ++ id ++ "]"
  | .noRenderer id => "No renderer registered for syntax [" ++ id ++ "]"

abbrev ParserCatalog := KeyMap Parser

namespace ParserCatalog

/-- Enter a parser under a dialect, in place of an earlier one. -/
def register (c : ParserCatalog) (d : Dialect) (p : Parser) : ParserCatalog := c.insert d.idText p

def standard : ParserCatalog := register ∅ .json .json

def find (c : ParserCatalog) (id : String) : Except CatalogError Parser :=
  match c.get? id with
  | some p => .ok p
  | none => .error (.noParser id)

end ParserCatalog

abbrev RendererCatalog := KeyMap Renderer

namespace RendererCatalog

/-- Enter a renderer under a dialect, in place of an earlier one. -/
def register (c : RendererCatalog) (d : Dialect) (r : Renderer) : RendererCatalog :=
  c.insert d.idText r

def standard : RendererCatalog := register ∅ .event .event

def find (c : RendererCatalog) (id : String) : Except CatalogError Renderer :=
  match c.get? id with
  | some r => .ok r
  | none => .error (.noRenderer id)

end RendererCatalog

end DocTree
