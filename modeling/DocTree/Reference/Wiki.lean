import DocTree.Reference
import DocTree.Text.Split

/-!
# Wikis

The document space that references are linked into. Addresses are made from templates, in which a
placeholder stands for the reference text.
-/

namespace DocTree

/-- Address templates of a wiki, and the documents that it is known to hold. -/
structure Wiki where
  viewUrl : String := "/view/\x7breference\x7d"
  editUrl : String := "/edit/\x7breference\x7d"
  imageUrl : String := "/download/\x7breference\x7d"
  documents : List String := []
deriving DecidableEq, Repr, Inhabited

namespace Wiki

/-- Stands for the reference text in a template. -/
def placeholder : String := "\x7breference\x7d"

/-- The address of a reference: its text in the template, then its query and its anchor. -/
def expand (template : String) (r : Reference) : String :=
  String.ofList (Text.replaceAll placeholder.toList r.text.toList template.toList)
    ++ (r.query?.map ("?" ++ ·)).getD "" ++ (r.anchor?.map ("#" ++ ·)).getD ""

def documentViewUrl (w : Wiki) (r : Reference) : String := expand w.viewUrl r

def documentEditUrl (w : Wiki) (r : Reference) : String := expand w.editUrl r

/-- A network path with slashes in the place of backslashes. -/
def slashed (text : String) : String :=
  String.ofList (text.toList.map fun c => if c = '\\' then '/' else c)

/-- Where a link leads; not every kind of resource has an address. -/
def linkUrl? (w : Wiki) (r : Reference) : Option String :=
  match r.kind with
  | .document | .page | .space => some (w.documentViewUrl r)
  | .attachment => some (expand w.imageUrl r)
  | .url | .path | .data => some r.text
  | .mailto => some ("mailto:" ++ r.text)
  | .unc => some ("file://" ++ slashed r.text)
  | .interwiki | .icon | .unknown | .custom _ => none

/-- Where an image is found. -/
def imageUrl? (w : Wiki) (r : Reference) : Option String :=
  match r.kind with
  | .attachment | .icon => some (expand w.imageUrl r)
  | .url | .data => some r.text
  | _ => none

def isAvailable (w : Wiki) (r : Reference) : Bool := w.documents.contains r.text

end Wiki

end DocTree
