import DocTree.Text.Split

/-!
# Markup dialects

A dialect is a family of markup together with a version, written `family/version`. Families with a
well-known identifier have a name for readers; any other family is called by its identifier.

Main statements: `parse_eq_ok_iff` gives the accepted texts and their values, `idText_of_parse` that
writing gives the text back.
-/

namespace DocTree

/-- Identifiers and names of the well-known families. -/
def knownFamilies : List (String × String) :=
  [("xwiki", "XWiki"), ("xhtml", "XHTML"), ("annotatedxhtml", "Annotated XHTML"), ("html", "HTML"),
    ("plain", "Plain"), ("xml", "XML"), ("event", "Events"), ("json", "JSON"),
    ("markdown", "Markdown"), ("creole", "Creole"), ("mediawiki", "MediaWiki"),
    ("confluence", "Confluence"), ("jspwiki", "JSPWiki"), ("twiki", "TWiki"),
    ("docbook", "DocBook")]

/-- A family of markup, whatever its version. -/
structure Family where
  id : String
  name : String
deriving DecidableEq, Repr, Inhabited

namespace Family

def known? (id : String) : Option Family :=
  (knownFamilies.lookup id).map fun name => ⟨id, name⟩

/-- A family that is not well known is called by its identifier. -/
def ofId (id : String) : Family := (known? id).getD ⟨id, id⟩

@[simp] theorem id_ofId (id : String) : (ofId id).id = id := by
  unfold ofId known?
  cases knownFamilies.lookup id <;> rfl

end Family

/-- A family of markup at one version. -/
structure Dialect where
  family : Family
  version : String
deriving DecidableEq, Repr, Inhabited

/-- Why a text names no dialect. -/
inductive DialectError
  | noSeparator (text : String)
  | emptyFamily (text : String)
deriving DecidableEq, Repr

def DialectError.message : DialectError → String
  | .noSeparator text => "Invalid Syntax format [" ++ text ++ "]: expected <id>/<version>"
  | .emptyFamily text => "Invalid Syntax format [" ++ text ++ "]: the syntax id is empty"

namespace Dialect

def ofParts (id version : String) : Dialect := ⟨.ofId id, version⟩

/-- The written form, `family/version`. -/
def idText (d : Dialect) : String := d.family.id ++ "/" ++ d.version

/-- The form for readers: the family's name and the version. -/
def display (d : Dialect) : String := d.family.name ++ " " ++ d.version

/-- The version is what follows the last separator. -/
def parse (text : String) : Except DialectError Dialect :=
  match Text.splitLast '/' text.toList with
  | none => .error (.noSeparator text)
  | some ([], _) => .error (.emptyFamily text)
  | some (c :: cs, version) => .ok (ofParts (String.ofList (c :: cs)) (String.ofList version))

theorem parse_eq_ok_iff {text : String} {d : Dialect} :
    parse text = .ok d ↔
      ∃ id version : String, text = id ++ "/" ++ version ∧ id ≠ "" ∧ '/' ∉ version.toList ∧
        d = ofParts id version := by
  unfold parse
  constructor
  · intro h
    split at h
    · cases h
    · cases h
    · rename_i c cs version hs
      obtain ⟨ht, hv⟩ := Text.splitLast_eq_some_iff.mp hs
      refine ⟨_, _, ?_, ?_, ?_, (Except.ok.inj h).symm⟩
      · rw [← String.toList_inj]; simp [ht]
      · intro he
        have := congrArg String.toList he
        simp at this
      · simpa using hv
  · rintro ⟨id, version, rfl, hid, hv, rfl⟩
    have hs : Text.splitLast '/' (id ++ "/" ++ version).toList = some (id.toList, version.toList) :=
      Text.splitLast_eq_some_iff.mpr ⟨by simp, hv⟩
    rw [hs]
    cases hc : id.toList with
    | nil => exact absurd (String.toList_inj.mp (by simpa using hc)) hid
    | cons c cs => simp [← hc]

theorem idText_ofParts (id version : String) :
    (ofParts id version).idText = id ++ "/" ++ version := by
  simp [ofParts, idText]

theorem idText_of_parse {text : String} {d : Dialect} (h : parse text = .ok d) :
    d.idText = text := by
  obtain ⟨id, version, rfl, -, -, rfl⟩ := parse_eq_ok_iff.mp h
  exact idText_ofParts id version

/-! ## Dialects that the library itself reads or writes -/

def event : Dialect := ofParts "event" "1.0"

def json : Dialect := ofParts "json" "1.0"

def xhtml : Dialect := ofParts "xhtml" "1.0"

def plain : Dialect := ofParts "plain" "1.0"

end Dialect

end DocTree
