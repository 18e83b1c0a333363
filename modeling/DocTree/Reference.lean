import DocTree.KeyMap

/-!
# References to resources

What a link or an image points to: the kind of resource, the reference text, base references that
qualify it, and parameters such as an anchor.
-/

namespace DocTree

/-! ## Kinds of resource -/

/-- The kind of resource that a reference points to; `custom` holds any other scheme. -/
inductive ResourceKind
  | document | url | mailto | attachment | interwiki | path | unc | space | page | icon | data
  | unknown
  | custom (scheme : String)
deriving DecidableEq, Repr, Inhabited

namespace ResourceKind

/-- The keyword that names the kind in front of a reference. -/
def scheme : ResourceKind → String
  | document => "doc"
  | url => "url"
  | mailto => "mailto"
  | attachment => "attach"
  | interwiki => "interwiki"
  | path => "path"
  | unc => "unc"
  | space => "space"
  | page => "page"
  | icon => "icon"
  | data => "data"
  | unknown => "unknown"
  | custom s => s

/-- The kinds that have a keyword of their own. -/
def builtIn : List ResourceKind :=
  [document, url, mailto, attachment, interwiki, path, unc, space, page, icon, data, unknown]

/-- The built-in kind of a keyword, or a custom kind. -/
def ofScheme (s : String) : ResourceKind :=
  (builtIn.find? fun k => k.scheme == s).getD (custom s)

def isCustom : ResourceKind → Bool
  | custom _ => true
  | _ => false

@[simp] theorem scheme_ofScheme (s : String) : (ofScheme s).scheme = s := by
  unfold ofScheme
  cases h : builtIn.find? fun k => k.scheme == s with
  | none => rfl
  | some k => simpa using List.find?_some h

theorem ofScheme_scheme_builtIn {k : ResourceKind} (h : k ∈ builtIn) : ofScheme k.scheme = k := by
  simp only [builtIn, List.mem_cons, List.not_mem_nil, or_false] at h
  rcases h with rfl | rfl | rfl | rfl | rfl | rfl | rfl | rfl | rfl | rfl | rfl | rfl <;> rfl

end ResourceKind

/-! ## References -/

structure Reference where
  kind : ResourceKind
  /-- Whether the kind was written out in front of the reference. -/
  typed : Bool := true
  text : String
  /-- Evaluated from the first to the last. -/
  bases : List String := []
  parameters : StringMap := ∅
deriving DecidableEq, Inhabited

namespace Reference

/-- The parameter that holds the alias of a page in another wiki. -/
def aliasKey : String := "interWikiAlias"

def queryKey : String := "queryString"

def anchorKey : String := "anchor"

/-- A typed reference without bases and parameters. -/
def ofKind (text : String) (kind : ResourceKind) : Reference := { kind, text }

/-- A page of another wiki. -/
def ofInterwiki (page wiki : String) : Reference :=
  { kind := .interwiki, text := page, parameters := (∅ : StringMap).insert aliasKey wiki }

def withTyped (r : Reference) (typed : Bool) : Reference := { r with typed }

def addBases (r : Reference) (bases : List String) : Reference :=
  { r with bases := r.bases ++ bases }

def setParameter (r : Reference) (name value : String) : Reference :=
  { r with parameters := r.parameters.insert name value }

def setParameters (r : Reference) (parameters : StringMap) : Reference :=
  { r with parameters := r.parameters.override parameters }

def removeParameter (r : Reference) (name : String) : Reference :=
  { r with parameters := r.parameters.erase name }

def alias? (r : Reference) : Option String := r.parameters.get? aliasKey

def query? (r : Reference) : Option String := r.parameters.get? queryKey

def anchor? (r : Reference) : Option String := r.parameters.get? anchorKey

def boolText : Bool → String
  | true => "true"
  | false => "false"

/-- `[a], [b]`, after a label; nothing for an empty list. -/
def labelled (label : String) (items : List String) : String :=
  if items.isEmpty then "" else label ++ "[" ++ ", ".intercalate items ++ "]"

/-- The form for readers. -/
def display (r : Reference) : String :=
  "Typed = [" ++ boolText r.typed ++ "] Type = [" ++ r.kind.scheme ++ "] Reference = [" ++ r.text
    ++ "]" ++ labelled " Base References = " (r.bases.map fun b => "[" ++ b ++ "]")
    ++ labelled " Parameters = "
      (r.parameters.entries.map fun e => "[" ++ e.1 ++ "] = [" ++ e.2 ++ "]")

end Reference

end DocTree
