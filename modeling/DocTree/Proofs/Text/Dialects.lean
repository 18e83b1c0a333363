import DocTree.Block.Written
import DocTree.Proofs.Json.RoundTrip

/-!
# Written dialects

A dialect is written as its family, a separator and its version. The family may hold further
separators, the version may not, so the last one tells where the text is to be cut (`Cuts`).

**Reading.** A text is read if it has a separator and something stands before the last one.
Otherwise the error says which of the two is missing (`parse_eq_error_iff`).

**Writing.** The name for readers is not written. It is found again from the identifier of the
family (`Family.name_ofId`), so nothing is lost when a dialect is read, written and read again, also
as a JSON text (`read?_jsonText_of_parse`).

Main result: `parse_reversible`.
-/

namespace DocTree

/-- A family is called by its well-known name, or else by its identifier. -/
theorem Family.name_ofId (id : String) :
    (ofId id).name = (knownFamilies.lookup id).getD id := by
  unfold ofId known?
  cases knownFamilies.lookup id <;> rfl

namespace Dialect

/-! ## Cutting at the last separator -/

/-- What stands before and after the last separator of a text. -/
structure Cuts (text id version : String) : Prop where
  eq : text = id ++ "/" ++ version
  last : '/' ∉ version.toList

theorem cuts_iff {text id version : String} :
    Cuts text id version ↔
      Text.splitLast '/' text.toList = some (id.toList, version.toList) := by
  have htext : text = id ++ "/" ++ version ↔
      text.toList = id.toList ++ '/' :: version.toList := by
    rw [← String.toList_inj]
    simp
  rw [Text.splitLast_eq_some_iff, ← htext]
  constructor
  · intro h
    exact ⟨h.eq, h.last⟩
  · intro h
    exact ⟨h.1, h.2⟩

/-! ## Reading -/

theorem exists_parse_eq_ok_iff {text : String} :
    (∃ d, parse text = .ok d) ↔ ∃ id version, Cuts text id version ∧ id ≠ "" := by
  constructor
  · intro h
    obtain ⟨d, hd⟩ := h
    obtain ⟨id, version, htext, hid, hlast, -⟩ := parse_eq_ok_iff.mp hd
    exact ⟨id, version, ⟨htext, hlast⟩, hid⟩
  · intro h
    obtain ⟨id, version, hcuts, hid⟩ := h
    exact ⟨_, parse_eq_ok_iff.mpr ⟨id, version, hcuts.eq, hid, hcuts.last, rfl⟩⟩

/-- A text is refused for want of a separator, or of an identifier before the last one. -/
theorem parse_eq_error_iff {text : String} {err : DialectError} :
    parse text = .error err ↔
      (err = .noSeparator text ∧ '/' ∉ text.toList) ∨
        (err = .emptyFamily text ∧ ∃ version, Cuts text "" version) := by
  have hnone : Text.splitLast '/' text.toList = none ↔ '/' ∉ text.toList :=
    Text.splitLast_eq_none_iff
  rw [← hnone]
  simp only [cuts_iff, String.toList_empty]
  unfold parse
  cases hsplit : Text.splitLast '/' text.toList with
  | none => simp [eq_comm]
  | some parts =>
    obtain ⟨id, version⟩ := parts
    have hversion : ∃ v : String, version = v.toList := ⟨String.ofList version, by simp⟩
    cases id with
    | nil => simp [hversion, eq_comm]
    | cons c id => simp

/-! ## Written forms -/

/-- The form for readers is left out. -/
def toJson (d : Dialect) : Json := .string d.idText

/-- The JSON text of a dialect. -/
def jsonText (d : Dialect) : String := d.toJson.text

/-- The dialect of a JSON text. -/
def read? (source : String) : Option Dialect := (Json.read? source).bind ofJson?

/-- A dialect that was read from a text is read back from its JSON text. -/
theorem read?_jsonText_of_parse {text : String} {d : Dialect} (h : parse text = .ok d) :
    read? d.jsonText = some d := by
  have hread : Json.read? d.jsonText = some (.string d.idText) := by
    have hexact : d.toJson.Exact := trivial
    exact (Json.read?_text hexact).trans (if_pos (Nat.zero_le _))
  rw [read?, hread, Option.bind_some, ofJson?, idText_of_parse h, h]
  rfl

/-! ## Main result -/

/-- **Dialects and their texts.** A text is read if and only if it has a separator and something
before the last one, and the error tells what is missing. A text that is read is the written form of
its dialect, so no other text gives the same dialect, and the dialect survives being written as
JSON. An identifier and a version without a separator are read as they were written, and the name is
the one that belongs to the identifier. -/
theorem parse_reversible (text : String) :
    ((∃ d, parse text = .ok d) ↔ ∃ id version, Cuts text id version ∧ id ≠ "") ∧
      (∀ err, parse text = .error err ↔
        (err = .noSeparator text ∧ '/' ∉ text.toList) ∨
          (err = .emptyFamily text ∧ ∃ version, Cuts text "" version)) ∧
      (∀ d, parse text = .ok d →
        d.idText = text ∧ (∀ other, parse other = .ok d → other = text) ∧
          read? d.jsonText = some d) ∧
      ∀ id version : String, id ≠ "" → '/' ∉ version.toList →
        ∃ d, parse (id ++ "/" ++ version) = .ok d ∧ d.family.id = id ∧ d.version = version ∧
          d.family.name = (knownFamilies.lookup id).getD id := by
  refine ⟨exists_parse_eq_ok_iff, fun _ => parse_eq_error_iff, ?_, ?_⟩
  · intro d hd
    refine ⟨idText_of_parse hd, ?_, read?_jsonText_of_parse hd⟩
    intro other hother
    rw [← idText_of_parse hother, idText_of_parse hd]
  · intro id version hid hversion
    refine ⟨ofParts id version, parse_eq_ok_iff.mpr ⟨id, version, rfl, hid, hversion, rfl⟩, ?_⟩
    exact ⟨Family.id_ofId id, rfl, Family.name_ofId id⟩

end Dialect

end DocTree
