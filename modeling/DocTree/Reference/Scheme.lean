import DocTree.Reference
import DocTree.Text.Split

/-!
# Scheme tables

A raw reference may begin with a scheme and a colon. A scheme table holds, for each scheme, a reader
of what follows the colon; a reader may reject its text.

Main statement: `read?_eq_some_iff`, a table reads a raw text exactly if the text before the first
colon is one of its schemes, not empty, whose reader accepts the rest.
-/

namespace DocTree

/-! ## Readers -/

/-- Reads the text after one scheme. -/
structure SchemeReader where
  /-- The kind that the reader stands for; its keyword is the scheme. -/
  kind : ResourceKind
  read : String → Option Reference

namespace SchemeReader

/-- Takes any text as a reference of one kind. -/
def ofKind (kind : ResourceKind) : SchemeReader where
  kind
  read text := some (.ofKind text kind)

def isProtocolChar (c : Char) : Bool := c.isAlphanum || c = '+' || c = '.' || c = '-'

/-- A possibly empty protocol in ASCII and `://` stand in front. -/
def isUrl (text : String) : Bool :=
  ([':', '/', '/'] : List Char).isPrefixOf (text.toList.dropWhile isProtocolChar)

/-- Takes only what has the shape of a URL. -/
def url : SchemeReader where
  kind := .url
  read text := if isUrl text then some (.ofKind text .url) else none

/-- The character after a scheme, and after the alias of another wiki. -/
def separator : Char := ':'

/-- Takes an alias and a page with a colon between them. -/
def interwiki : SchemeReader where
  kind := .interwiki
  read text :=
    (Text.splitFirst separator text.toList).map fun p =>
      .ofInterwiki (String.ofList p.2) (String.ofList p.1)

end SchemeReader

/-! ## Tables -/

/-- Why a scheme and a text give no reference. -/
inductive SchemeError
  | missing (text : String)
  | unknown (scheme : String)
  | rejected (scheme text : String)
deriving DecidableEq, Repr

def SchemeError.message : SchemeError → String
  | .missing text => "Invalid reference [" ++ text ++ "]: missing scheme"
  | .unknown scheme => "Unknown reference scheme [" ++ scheme ++ "]"
  | .rejected scheme text => "Invalid [" ++ scheme ++ "] reference [" ++ text ++ "]"

/-- Readers by scheme. -/
abbrev SchemeTable := KeyMap SchemeReader

namespace SchemeTable

/-- A reader takes the place of an earlier one for the same scheme. -/
def register (t : SchemeTable) (r : SchemeReader) : SchemeTable := t.insert r.kind.scheme r

def ofReaders (rs : List SchemeReader) : SchemeTable := rs.foldl register ∅

/-- The kinds whose scheme takes any text. -/
def freeKinds : List ResourceKind :=
  [.document, .mailto, .attachment, .path, .unc, .space, .page, .icon, .data]

/-- The table of all built-in schemes. -/
def standard : SchemeTable :=
  ofReaders (freeKinds.map SchemeReader.ofKind ++ [.url, .interwiki])

/-- Read a text after a given scheme. What is read counts as typed. -/
def readWith (t : SchemeTable) (scheme text : String) : Except SchemeError Reference :=
  if scheme = "" then .error (.missing (String.singleton SchemeReader.separator ++ text))
  else
    match t.get? scheme with
    | none => .error (.unknown scheme)
    | some r =>
      match r.read text with
      | none => .error (.rejected scheme text)
      | some reference => .ok (reference.withTyped true)

/-- Read a raw reference by the scheme in front of it. -/
def read? (t : SchemeTable) (raw : String) : Option Reference :=
  match Text.splitFirst SchemeReader.separator raw.toList with
  | none => none
  | some (scheme, text) => (t.readWith (String.ofList scheme) (String.ofList text)).toOption

/-- Read a raw reference; without a usable scheme it is of unknown kind. -/
def read (t : SchemeTable) (raw : String) : Reference :=
  (t.read? raw).getD ((Reference.ofKind raw .unknown).withTyped false)

theorem readWith_eq_ok_iff {t : SchemeTable} {scheme text : String} {reference : Reference} :
    t.readWith scheme text = .ok reference ↔
      scheme ≠ "" ∧ ∃ r, t.get? scheme = some r ∧
        ∃ found, r.read text = some found ∧ reference = found.withTyped true := by
  unfold readWith
  split
  · simp_all
  · rename_i hs
    cases hr : t.get? scheme with
    | none => simp
    | some r =>
      cases hf : r.read text with
      | none => simp [hf]
      | some found => simp [hs, hf, eq_comm]

theorem read?_eq_some_iff {t : SchemeTable} {raw : String} {reference : Reference} :
    t.read? raw = some reference ↔
      ∃ scheme text : String, raw = scheme ++ ":" ++ text ∧ ':' ∉ scheme.toList ∧
        t.readWith scheme text = .ok reference := by
  unfold read?
  constructor
  · intro h
    split at h
    · cases h
    · rename_i scheme text hs
      obtain ⟨hraw, hn⟩ := Text.splitFirst_eq_some_iff.mp hs
      refine ⟨String.ofList scheme, String.ofList text, ?_,
        by simpa [SchemeReader.separator] using hn, ?_⟩
      · rw [← String.toList_inj]
        simpa [SchemeReader.separator] using hraw
      · cases hr : t.readWith (String.ofList scheme) (String.ofList text) with
        | error e => rw [hr] at h; cases h
        | ok r => rw [hr] at h; cases h; rfl
  · rintro ⟨scheme, text, rfl, hn, hr⟩
    have hs : Text.splitFirst SchemeReader.separator (scheme ++ ":" ++ text).toList =
        some (scheme.toList, text.toList) :=
      Text.splitFirst_eq_some_iff.mpr ⟨by simp [SchemeReader.separator], hn⟩
    rw [hs]
    simp [hr, Except.toOption]

end SchemeTable

end DocTree
