import DocTree.Reference.Resolve
import Mathlib.Data.List.Nodup
import Mathlib.Data.List.TakeWhile

/-!
# What raw references stand for

A raw reference is read by the scheme in front of it, or else its kind is guessed. This file says
when the scheme decides, for any table of schemes, and gives the grammar of the standard table.

**Precedence.** What a table reads is taken, unless its kind is unknown: then the kind is guessed as
if there were no scheme (`resolve_eq_read_iff`). So a reader for a scheme of the unknown kind is
never heard (`resolve_unknown_scheme`).

**The standard grammar.** `Schemed` lists the texts with a scheme in front, and `Usage.Denotes` says
what any text stands for. No text is lost: `Reference.written` writes the raw reference again.

Main results: `resolve_eq_read_iff` for any table, `resolve_standard` for the standard one.
-/

namespace DocTree

namespace Reference

/-- Where a raw reference stands: in a link, inside a wiki or not, or in an image. -/
inductive Usage
  | link (inWiki : Bool)
  | image
deriving DecidableEq

namespace Usage

def resolve (t : SchemeTable) : Usage → String → Reference
  | link inWiki, raw => resolveLink t inWiki raw
  | image, raw => resolveImage t raw

/-- The reference when no scheme decides. -/
def guess : Usage → String → Reference
  | link inWiki, raw => guessLink inWiki raw
  | image, raw => guessImage raw

end Usage

end Reference

open Reference

/-! ## Tables -/

namespace SchemeTable

/-- The reader registered last for a scheme is the one that is found. -/
theorem get?_foldl_register (rs : List SchemeReader) (t : SchemeTable) (scheme : String) :
    (rs.foldl register t).get? scheme =
      (rs.reverse.find? fun r => r.kind.scheme = scheme).or (t.get? scheme) := by
  induction rs generalizing t with
  | nil => rfl
  | cons r rs ih =>
    rw [List.foldl_cons, ih, register, KeyMap.get?_insert, List.reverse_cons, List.find?_append,
      Option.or_assoc]
    by_cases h : scheme = r.kind.scheme
    · simp [h]
    · simp [h, Ne.symm h]

theorem get?_ofReaders (rs : List SchemeReader) (scheme : String) :
    (ofReaders rs).get? scheme = rs.reverse.find? fun r => r.kind.scheme = scheme := by
  rw [ofReaders, get?_foldl_register, KeyMap.get?_empty, Option.or_none]

/-- Readers for distinct schemes are all found. -/
theorem get?_ofReaders_eq_some_iff {rs : List SchemeReader} {scheme : String} {r : SchemeReader}
    (h : (rs.map fun r => r.kind.scheme).Nodup) :
    (ofReaders rs).get? scheme = some r ↔ r ∈ rs ∧ r.kind.scheme = scheme := by
  rw [get?_ofReaders]
  constructor
  · intro hr
    exact ⟨List.mem_reverse.mp (List.mem_of_find?_eq_some hr), by simpa using List.find?_some hr⟩
  · rintro ⟨hr, rfl⟩
    have hsome : (rs.reverse.find? fun r' => r'.kind.scheme = r.kind.scheme).isSome = true :=
      List.find?_isSome.mpr ⟨r, List.mem_reverse.mpr hr, decide_eq_true rfl⟩
    obtain ⟨r', hr'⟩ := Option.isSome_iff_exists.mp hsome
    have hmem := List.mem_reverse.mp (List.mem_of_find?_eq_some hr')
    rw [hr', List.inj_on_of_nodup_map h hmem hr (by simpa using List.find?_some hr')]

/-- What a table reads was read by the reader for the text before the first colon. -/
theorem read?_eq_some_iff_get? {t : SchemeTable} {raw : String} {reference : Reference} :
    t.read? raw = some reference ↔
      ∃ (scheme text : String) (reader : SchemeReader) (found : Reference),
        raw = scheme ++ ":" ++ text ∧ ':' ∉ scheme.toList ∧ scheme ≠ "" ∧
          t.get? scheme = some reader ∧ reader.read text = some found ∧
          reference = found.withTyped true := by
  rw [read?_eq_some_iff]
  constructor
  · rintro ⟨scheme, text, hraw, hcolon, hread⟩
    obtain ⟨hne, reader, hreader, found, hfound, hr⟩ := readWith_eq_ok_iff.mp hread
    exact ⟨scheme, text, reader, found, hraw, hcolon, hne, hreader, hfound, hr⟩
  · rintro ⟨scheme, text, reader, found, hraw, hcolon, hne, hreader, hfound, hr⟩
    exact ⟨scheme, text, hraw, hcolon,
      readWith_eq_ok_iff.mpr ⟨hne, reader, hreader, found, hfound, hr⟩⟩

/-- What is read by its scheme counts as typed. -/
theorem typed_of_read? {t : SchemeTable} {raw : String} {r : Reference}
    (h : t.read? raw = some r) : r.typed = true := by
  obtain ⟨_, _, _, _, -, -, -, -, -, rfl⟩ := read?_eq_some_iff_get?.mp h
  rfl

end SchemeTable

/-! ## URLs -/

namespace SchemeReader

/-- ASCII letters and digits, and the signs that protocols are written with. -/
def ProtocolChar (c : Char) : Prop :=
  ('a' ≤ c ∧ c ≤ 'z') ∨ ('A' ≤ c ∧ c ≤ 'Z') ∨ ('0' ≤ c ∧ c ≤ '9') ∨ c ∈ ['+', '.', '-']

/-- The shape of a URL: a protocol, which may be empty, and two slashes after a colon. -/
def UrlShaped (text : String) : Prop :=
  ∃ protocol rest : String, text = protocol ++ "://" ++ rest ∧
    ∀ c ∈ protocol.toList, ProtocolChar c

theorem isProtocolChar_iff {c : Char} : isProtocolChar c = true ↔ ProtocolChar c := by
  have hclasses : c.isAlphanum = (decide ('A' ≤ c ∧ c ≤ 'Z') ||
      (decide ('a' ≤ c) && decide (c ≤ 'z')) || (decide ('0' ≤ c) && decide (c ≤ '9'))) := rfl
  rw [isProtocolChar, hclasses]
  simp only [ProtocolChar, Bool.or_eq_true, Bool.and_eq_true, decide_eq_true_eq, List.mem_cons,
    List.not_mem_nil, or_false]
  grind

/-- What is left after the longest run of protocol characters begins with the colon. -/
theorem isUrl_iff {text : String} : isUrl text = true ↔ UrlShaped text := by
  rw [isUrl, List.isPrefixOf_iff_prefix]
  constructor
  · rintro ⟨rest, hrest⟩
    refine ⟨String.ofList (text.toList.takeWhile isProtocolChar), String.ofList rest, ?_,
      fun c hc => ?_⟩
    · rw [← String.toList_inj]
      simp only [String.toList_append, String.toList_ofList, List.append_assoc]
      exact (List.takeWhile_append_dropWhile.symm.trans (by rw [← hrest]; rfl))
    · rw [String.toList_ofList] at hc
      exact isProtocolChar_iff.mp (List.mem_takeWhile_imp hc)
  · rintro ⟨protocol, rest, rfl, hprotocol⟩
    have hrun : ∀ c ∈ protocol.toList, isProtocolChar c = true := fun c hc =>
      isProtocolChar_iff.mpr (hprotocol c hc)
    refine ⟨rest.toList, ?_⟩
    rw [String.toList_append, String.toList_append, List.append_assoc,
      List.dropWhile_append_of_pos hrun]
    rfl

theorem read_url_eq_some_iff {text : String} {r : Reference} :
    url.read text = some r ↔ UrlShaped text ∧ r = .ofKind text .url := by
  rw [← isUrl_iff, url]
  dsimp only
  split
  · rename_i h
    rw [Option.some_inj, eq_comm]
    exact (and_iff_right h).symm
  · rename_i h
    exact ⟨nofun, fun hr => absurd hr.1 h⟩

/-- The alias ends at the first colon. -/
theorem read_interwiki_eq_some_iff {text : String} {r : Reference} :
    interwiki.read text = some r ↔
      ∃ wiki page : String, text = wiki ++ ":" ++ page ∧ ':' ∉ wiki.toList ∧
        r = .ofInterwiki page wiki := by
  rw [interwiki, Option.map_eq_some_iff]
  constructor
  · rintro ⟨⟨wiki, page⟩, hsplit, rfl⟩
    obtain ⟨htext, hcolon⟩ := Text.splitFirst_eq_some_iff.mp hsplit
    refine ⟨String.ofList wiki, String.ofList page, ?_, by simpa [separator] using hcolon, rfl⟩
    rw [← String.toList_inj]
    simpa [separator] using htext
  · rintro ⟨wiki, page, rfl, hcolon, rfl⟩
    refine ⟨(wiki.toList, page.toList), ?_, by simp⟩
    exact Text.splitFirst_eq_some_iff.mpr ⟨by simp [separator], hcolon⟩

end SchemeReader

/-! ## Precedence -/

namespace Reference

namespace Usage

theorem resolve_eq_orGuess (u : Usage) (t : SchemeTable) (raw : String) :
    u.resolve t raw = orGuess (u.guess raw) (t.read raw) := by
  cases u <;> rfl

theorem typed_guess (u : Usage) (raw : String) : (u.guess raw).typed = false := by
  cases u <;> rfl

theorem resolve_of_read?_eq_none {u : Usage} {t : SchemeTable} {raw : String}
    (h : t.read? raw = none) : u.resolve t raw = u.guess raw := by
  rw [resolve_eq_orGuess, SchemeTable.read, h]
  rfl

theorem resolve_of_read?_eq_some {u : Usage} {t : SchemeTable} {raw : String} {r : Reference}
    (h : t.read? raw = some r) :
    u.resolve t raw = if r.kind = .unknown then u.guess raw else r := by
  rw [resolve_eq_orGuess, SchemeTable.read, h]
  rfl

/-- A resolved reference counts as typed if it was read by its scheme, as one of known kind. -/
theorem typed_resolve_iff {u : Usage} {t : SchemeTable} {raw : String} :
    (u.resolve t raw).typed = true ↔ ∃ r, t.read? raw = some r ∧ r.kind ≠ .unknown := by
  cases h : t.read? raw with
  | none => simp [resolve_of_read?_eq_none h, typed_guess]
  | some r =>
    rw [resolve_of_read?_eq_some h]
    split
    · rename_i hk
      simp [typed_guess, hk]
    · rename_i hk
      simp [SchemeTable.typed_of_read? h, hk]

/-- **A scheme in front decides, unless the kind of what it reads is unknown.** Whatever readers are
registered, and in whatever order: the reference is what the table reads, and a guess if it reads
nothing, exactly if the table does not read a reference of unknown kind. So it counts as typed
exactly if the text before the first colon is not empty, and the reader registered last for it takes
the rest as a reference of known kind. -/
theorem resolve_eq_read_iff (u : Usage) (rs : List SchemeReader) (raw : String) :
    (u.resolve (.ofReaders rs) raw =
        ((SchemeTable.ofReaders rs).read? raw).getD (u.guess raw) ↔
      ∀ r, (SchemeTable.ofReaders rs).read? raw = some r → r.kind ≠ .unknown) ∧
    ((u.resolve (.ofReaders rs) raw).typed = true ↔
      ∃ (scheme text : String) (reader : SchemeReader) (found : Reference),
        raw = scheme ++ ":" ++ text ∧ ':' ∉ scheme.toList ∧ scheme ≠ "" ∧
          rs.reverse.find? (fun r => r.kind.scheme = scheme) = some reader ∧
          reader.read text = some found ∧ found.kind ≠ .unknown) := by
  constructor
  · cases h : (SchemeTable.ofReaders rs).read? raw with
    | none => simp [resolve_of_read?_eq_none h]
    | some r =>
      rw [resolve_of_read?_eq_some h, Option.getD_some]
      constructor
      · rintro heq r' ⟨rfl⟩ hk
        -- A guess is not typed, but what was read is.
        have htyped := SchemeTable.typed_of_read? h
        rw [if_pos hk] at heq
        rw [← heq, typed_guess] at htyped
        cases htyped
      · intro hk
        rw [if_neg (hk r rfl)]
  · rw [typed_resolve_iff]
    constructor
    · rintro ⟨r, hr, hk⟩
      obtain ⟨scheme, text, reader, found, hraw, hcolon, hne, hreader, hfound, rfl⟩ :=
        SchemeTable.read?_eq_some_iff_get?.mp hr
      rw [SchemeTable.get?_ofReaders] at hreader
      exact ⟨scheme, text, reader, found, hraw, hcolon, hne, hreader, hfound, hk⟩
    · rintro ⟨scheme, text, reader, found, hraw, hcolon, hne, hreader, hfound, hk⟩
      rw [← SchemeTable.get?_ofReaders] at hreader
      exact ⟨found.withTyped true, SchemeTable.read?_eq_some_iff_get?.mpr
        ⟨scheme, text, reader, found, hraw, hcolon, hne, hreader, hfound, rfl⟩, hk⟩

/-- The scheme of the unknown kind may be registered, and its reader takes any text. But what it
reads is not taken. -/
theorem resolve_unknown_scheme :
    let t := SchemeTable.ofReaders [SchemeReader.ofKind .unknown]
    t.read? "unknown:x" = some { kind := .unknown, typed := true, text := "x" } ∧
      (link true).resolve t "unknown:x" =
        { kind := .document, typed := false, text := "unknown:x" } ∧
      ¬ ∀ (u : Usage) (rs : List SchemeReader) (raw : String),
        u.resolve (.ofReaders rs) raw =
          ((SchemeTable.ofReaders rs).read? raw).getD (u.guess raw) := by
  have hread : (SchemeTable.ofReaders [SchemeReader.ofKind .unknown]).read? "unknown:x" =
      some { kind := .unknown, typed := true, text := "x" } := by
    decide +kernel
  refine ⟨hread, by decide +kernel, fun h => ?_⟩
  have hlaw := h (link true) [SchemeReader.ofKind .unknown] "unknown:x"
  rw [hread, resolve_of_read?_eq_some hread] at hlaw
  exact absurd (congrArg typed hlaw) (by decide)

end Usage

/-! ## The standard grammar -/

/-- The schemes that take any text. -/
def freeSchemes : List (String × ResourceKind) :=
  [("doc", .document), ("mailto", .mailto), ("attach", .attachment), ("path", .path),
    ("unc", .unc), ("space", .space), ("page", .page), ("icon", .icon), ("data", .data)]

/-- The texts with a usable scheme in front, and what they stand for. -/
inductive Schemed : String → Reference → Prop
  | free {scheme : String} {kind : ResourceKind} (h : (scheme, kind) ∈ freeSchemes)
      (text : String) : Schemed (scheme ++ ":" ++ text) { kind, typed := true, text }
  | url {text : String} (h : SchemeReader.UrlShaped text) :
      Schemed ("url" ++ ":" ++ text) { kind := .url, typed := true, text }
  | interwiki {wiki : String} (h : ':' ∉ wiki.toList) (page : String) :
      Schemed ("interwiki" ++ ":" ++ (wiki ++ ":" ++ page))
        { kind := .interwiki, typed := true, text := page,
          parameters := (∅ : StringMap).insert aliasKey wiki }

namespace Usage

/-- The kind of a text without a usable scheme. -/
inductive Guesses (raw : String) : Usage → ResourceKind → Prop
  | url {u : Usage} (h : SchemeReader.UrlShaped raw) : Guesses raw u .url
  | outsideWiki : Guesses raw (link false) .url
  | document (h : ¬ SchemeReader.UrlShaped raw) : Guesses raw (link true) .document
  | attachment (h : ¬ SchemeReader.UrlShaped raw) : Guesses raw image .attachment

/-- What a raw reference stands for. -/
inductive Denotes (u : Usage) (raw : String) : Reference → Prop
  | schemed {r : Reference} (h : Schemed raw r) : Denotes u raw r
  | guessed {kind : ResourceKind} (h : ∀ r, ¬ Schemed raw r) (hk : Guesses raw u kind) :
      Denotes u raw { kind, typed := false, text := raw }

end Usage

/-- The raw reference that a resolved one was read from. -/
def written (r : Reference) : String :=
  if r.typed then
    r.kind.scheme ++ ":" ++ match r.alias? with
      | some wiki => wiki ++ ":" ++ r.text
      | none => r.text
  else r.text

/-! ### The standard table -/

theorem get?_standard_iff {scheme : String} {reader : SchemeReader} :
    SchemeTable.standard.get? scheme = some reader ↔
      (∃ kind, (scheme, kind) ∈ freeSchemes ∧ reader = .ofKind kind) ∨
        (scheme = "url" ∧ reader = .url) ∨ (scheme = "interwiki" ∧ reader = .interwiki) := by
  have hfree : freeSchemes = SchemeTable.freeKinds.map fun k => (k.scheme, k) := rfl
  rw [SchemeTable.standard, SchemeTable.get?_ofReaders_eq_some_iff (by decide), hfree]
  simp only [List.mem_append, List.mem_map, List.mem_cons, List.not_mem_nil, or_false,
    Prod.mk.injEq]
  constructor
  · rintro ⟨⟨k, hk, rfl⟩ | rfl | rfl, rfl⟩
    · exact .inl ⟨k, ⟨k, hk, rfl, rfl⟩, rfl⟩
    · exact .inr (.inl ⟨rfl, rfl⟩)
    · exact .inr (.inr ⟨rfl, rfl⟩)
  · rintro (⟨_, ⟨k, hk, rfl, rfl⟩, rfl⟩ | ⟨rfl, rfl⟩ | ⟨rfl, rfl⟩)
    · exact ⟨.inl ⟨k, hk, rfl⟩, rfl⟩
    · exact ⟨.inr (.inl rfl), rfl⟩
    · exact ⟨.inr (.inr rfl), rfl⟩

theorem freeSchemes_nonempty {scheme : String} {kind : ResourceKind}
    (h : (scheme, kind) ∈ freeSchemes) : ':' ∉ scheme.toList ∧ scheme ≠ "" := by
  have hall : ∀ p ∈ freeSchemes, ':' ∉ p.1.toList ∧ p.1 ≠ "" := by decide +kernel
  exact hall _ h

/-- The standard table reads the texts of the grammar, and nothing else. -/
theorem read?_standard_iff {raw : String} {r : Reference} :
    SchemeTable.standard.read? raw = some r ↔ Schemed raw r := by
  rw [SchemeTable.read?_eq_some_iff_get?]
  constructor
  · rintro ⟨scheme, text, reader, found, rfl, -, -, hreader, hfound, rfl⟩
    rcases get?_standard_iff.mp hreader with ⟨kind, hk, rfl⟩ | ⟨rfl, rfl⟩ | ⟨rfl, rfl⟩
    · obtain rfl := Option.some.inj hfound
      exact .free hk text
    · obtain ⟨hshape, rfl⟩ := SchemeReader.read_url_eq_some_iff.mp hfound
      exact .url hshape
    · obtain ⟨wiki, page, rfl, hcolon, rfl⟩ := SchemeReader.read_interwiki_eq_some_iff.mp hfound
      exact .interwiki hcolon page
  · intro h
    cases h with
    | @free scheme kind hk text =>
      obtain ⟨hcolon, hne⟩ := freeSchemes_nonempty hk
      exact ⟨scheme, text, _, _, rfl, hcolon, hne,
        get?_standard_iff.mpr (.inl ⟨kind, hk, rfl⟩), rfl, rfl⟩
    | @url text hshape =>
      exact ⟨"url", text, _, _, rfl, by decide +kernel, by decide,
        get?_standard_iff.mpr (.inr (.inl ⟨rfl, rfl⟩)),
        SchemeReader.read_url_eq_some_iff.mpr ⟨hshape, rfl⟩, rfl⟩
    | @interwiki wiki hcolon page =>
      exact ⟨"interwiki", wiki ++ ":" ++ page, _, _, rfl, by decide +kernel, by decide,
        get?_standard_iff.mpr (.inr (.inr ⟨rfl, rfl⟩)),
        SchemeReader.read_interwiki_eq_some_iff.mpr ⟨wiki, page, rfl, hcolon, rfl⟩, rfl⟩

theorem Schemed.kind_ne_unknown {raw : String} {r : Reference} (h : Schemed raw r) :
    r.kind ≠ .unknown := by
  cases h with
  | @free scheme kind hk text =>
    have hall : ∀ p ∈ freeSchemes, p.2 ≠ .unknown := by decide
    exact hall _ hk
  | url => exact nofun
  | interwiki => exact nofun

theorem Schemed.written {raw : String} {r : Reference} (h : Schemed raw r) : r.written = raw := by
  cases h with
  | @free scheme kind hk text =>
    have hall : ∀ p ∈ freeSchemes, p.2.scheme = p.1 := by decide
    rw [Reference.written, if_pos rfl, hall _ hk]
    rfl
  | url => rfl
  | @interwiki wiki hcolon page =>
    have halias : ((∅ : StringMap).insert aliasKey wiki).get? aliasKey = some wiki := by
      rw [KeyMap.get?_insert, if_pos rfl]
    rw [Reference.written, if_pos rfl, alias?, halias]
    rfl

namespace Usage

theorem guess_of_guesses {u : Usage} {raw : String} {kind : ResourceKind}
    (h : Guesses raw u kind) : u.guess raw = { kind, typed := false, text := raw } := by
  have hshaped : ∀ other, SchemeReader.UrlShaped raw → urlOr other raw = .ofKind raw .url :=
    fun other hurl => congrArg _ (if_pos (SchemeReader.isUrl_iff.mpr hurl))
  have hplain : ∀ other, ¬ SchemeReader.UrlShaped raw → urlOr other raw = .ofKind raw other :=
    fun other hurl => congrArg _ (if_neg (mt SchemeReader.isUrl_iff.mp hurl))
  cases h with
  | url hurl =>
    match u with
    | link true => exact congrArg (withTyped · false) (hshaped _ hurl)
    | link false => rfl
    | image => exact congrArg (withTyped · false) (hshaped _ hurl)
  | outsideWiki => rfl
  | document hurl => exact congrArg (withTyped · false) (hplain _ hurl)
  | attachment hurl => exact congrArg (withTyped · false) (hplain _ hurl)

theorem exists_guesses (u : Usage) (raw : String) : ∃ kind, Guesses raw u kind := by
  by_cases hurl : SchemeReader.UrlShaped raw
  · exact ⟨_, .url hurl⟩
  · match u with
    | link true => exact ⟨_, .document hurl⟩
    | link false => exact ⟨_, .outsideWiki⟩
    | image => exact ⟨_, .attachment hurl⟩

theorem resolve_of_schemed {u : Usage} {raw : String} {r : Reference} (h : Schemed raw r) :
    u.resolve .standard raw = r := by
  rw [resolve_of_read?_eq_some (read?_standard_iff.mpr h), if_neg h.kind_ne_unknown]

theorem resolve_of_not_schemed {u : Usage} {raw : String} (h : ∀ r, ¬ Schemed raw r) :
    u.resolve .standard raw = u.guess raw :=
  resolve_of_read?_eq_none
    (Option.eq_none_iff_forall_ne_some.mpr fun r hr => h r (read?_standard_iff.mp hr))

theorem resolve_standard_iff {u : Usage} {raw : String} {r : Reference} :
    u.resolve .standard raw = r ↔ u.Denotes raw r := by
  constructor
  · rintro rfl
    by_cases h : ∃ r, Schemed raw r
    · obtain ⟨r, hr⟩ := h
      rw [resolve_of_schemed hr]
      exact .schemed hr
    · have hnone := not_exists.mp h
      obtain ⟨kind, hk⟩ := exists_guesses u raw
      rw [resolve_of_not_schemed hnone, guess_of_guesses hk]
      exact .guessed hnone hk
  · intro h
    cases h with
    | schemed hr => exact resolve_of_schemed hr
    | guessed hnone hk => rw [resolve_of_not_schemed hnone, guess_of_guesses hk]

/-- Writing undoes resolving. -/
theorem written_resolve (u : Usage) (raw : String) : (u.resolve .standard raw).written = raw := by
  have hdenotes : u.Denotes raw (u.resolve .standard raw) := resolve_standard_iff.mp rfl
  generalize u.resolve .standard raw = r at hdenotes
  cases hdenotes with
  | schemed h => exact h.written
  | guessed => rfl

/-- **The standard table follows the grammar, and no text is lost.** In each of the three usages, a
raw reference resolves to what it denotes and to nothing else, it can be written again from what it
resolves to, and no two raw references resolve to the same. -/
theorem resolve_standard (u : Usage) :
    (∀ raw r, u.resolve .standard raw = r ↔ u.Denotes raw r) ∧
      (∀ raw, (u.resolve .standard raw).written = raw) ∧
      Function.Injective (u.resolve .standard) :=
  ⟨fun _ _ => resolve_standard_iff, written_resolve u,
    Function.LeftInverse.injective (written_resolve u)⟩

end Usage

end Reference

end DocTree
