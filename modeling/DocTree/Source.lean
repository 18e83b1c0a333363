import DocTree.Block.Fault
import DocTree.Block.Written
import DocTree.Printer

/-!
# Documents from source text

The source form of a document is a written tree. What is read is always a document: any other block
becomes the only child of one. The document's metadata names the dialect it was read from, unless it
names one already. Trees that events cannot express are refused.
-/

namespace DocTree

/-! ## Metadata of a document -/

/-- The dialect that a document was written in. -/
def dialectKey : String := "syntax"

/-- Where the content of a document was read from. -/
def sourceKey : String := "source"

/-- What relative references are resolved against. -/
def baseKey : String := "base"

/-! ## Reading -/

/-- Why a source gives no document. -/
inductive SourceError
  /-- The bytes are no text. -/
  | notText
  /-- The text is not a written tree. -/
  | malformed
  /-- Events cannot express the tree. -/
  | inexpressible (fault : Fault)
deriving DecidableEq, Repr

def SourceError.message : SourceError → String
  | .notText => "Failed to read input"
  | .malformed => "Invalid JSON tree"
  | .inexpressible f => "Invalid tree structure: " ++ f.message

namespace Block

/-- Name the dialect in the metadata, unless one is named there. -/
def nameDialect (d : Dialect) (metadata : StringMap) : StringMap :=
  if metadata.contains dialectKey then metadata else metadata.insert dialectKey d.idText

/-- The block as a document that names its dialect. -/
def toDocument (d : Dialect) (b : Block) : Block :=
  match b.kind with
  | .container (.document m) => { b with kind := .container (.document (nameDialect d m)) }
  | _ => document (nameDialect d ∅) [b]

/-- The document of a source text. -/
def ofSource (source : String) : Except SourceError Block :=
  match read? source with
  | none => .error .malformed
  | some b =>
    match b.fault? with
    | some f => .error (.inexpressible f)
    | none => .ok (b.toDocument .json)

/-- The document of a source given as bytes in UTF-8. -/
def ofSourceBytes (bytes : ByteArray) : Except SourceError Block :=
  match String.fromUTF8? bytes with
  | none => .error .notText
  | some source => ofSource source

end Block

/-! ## Reading into a listener -/

/-- Why the events of a source were not all delivered. -/
inductive StreamError
  | source (e : SourceError)
  | listener (e : ListenerError)
deriving DecidableEq, Repr

def StreamError.message : StreamError → String
  | .source e => e.message
  | .listener e => "Listener failed: " ++ e.message

namespace Listener

/-- Deliver the events of a source's document; nothing is delivered if there is none. -/
def readSource {σ : Type} (l : Listener σ) (source : String) (state : σ) :
    Except StreamError Unit × σ :=
  match Block.ofSource source with
  | .error e => (.error (.source e), state)
  | .ok b =>
    match l.traverse b state with
    | (.ok _, s) => (.ok (), s)
    | (.error e, s) => (.error (.listener e), s)

end Listener

end DocTree
