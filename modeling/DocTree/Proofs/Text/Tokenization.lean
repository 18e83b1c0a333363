import DocTree.PlainText
import Mathlib.Data.List.SplitBy

/-!
# The only split of a plain text

Of all lists of words, spaces and symbols, one has the text of a given plain text and keeps words
and spaces apart: the blocks that stand for the text.

**The pieces** (`IsPiece`). A word has characters, none of them white space or punctuation; a symbol
is a punctuation character. Two words or two spaces are not neighbours (`Apart`).

**The text** (`textOf`). It is the plain text with each run of white space as one blank
(`singleBlanks`). The runs are those of `List.splitBy`: they are maximal, and one after the other
they give the plain text.

Pieces that keep apart are found again in their text (`tokens_flatten`), as a word ends where no
word goes on. Two lists with the same text are therefore the same.

Main result: `isSplit_iff`.
-/

namespace DocTree.PlainText

open Text

/-! ## Tokens are found again in their text -/

theorem Separated.tail {t : Token} {ts : List Token} (h : Separated (t :: ts)) : Separated ts := by
  cases ts with
  | nil => trivial
  | cons t' ts => exact h.2

/-- What may stand behind a word does not depend on its letters. -/
theorem Separated.word {as bs : List Char} {ts : List Token} (h : Separated (.word as :: ts)) :
    Separated (.word bs :: ts) := by
  cases ts with
  | nil => trivial
  | cons t ts => cases t <;> exact h

section
variable {c : Char} {ts : List Token}

theorem before_of_isBlank (hc : isBlank c = true) (hs : Separated (.space :: ts)) :
    before c ts = .space :: ts := by
  cases ts with
  | nil => simp [before, hc]
  | cons t ts => cases t <;> simp_all [before, Separated, Token.Separate]

theorem before_of_isPunctuation (hc : isPunctuation c = true) (ts : List Token) :
    before c ts = .symbol c :: ts := by
  simp [before, hc, not_isBlank_of_isPunctuation hc]

theorem before_of_letter (hc : isBlank c = false ∧ isPunctuation c = false)
    (hs : Separated (.word [c] :: ts)) : before c ts = .word [c] :: ts := by
  cases ts with
  | nil => simp [before, hc]
  | cons t ts => cases t <;> simp_all [before, Separated, Token.Separate]

theorem before_word (hc : isBlank c = false ∧ isPunctuation c = false) (letters : List Char)
    (ts : List Token) : before c (.word letters :: ts) = .word (c :: letters) :: ts := by
  simp [before, hc]

end

/-- Letters in front of what is no word make a word. -/
theorem foldr_before_word {letters : List Char} {ts : List Token}
    (hw : (Token.word letters).WellFormed) (hs : Separated (.word letters :: ts)) :
    letters.foldr before ts = .word letters :: ts := by
  obtain ⟨hne, hletters⟩ := hw
  induction letters with
  | nil => exact absurd rfl hne
  | cons c cs ih =>
    obtain ⟨hc, hcs⟩ := List.forall_mem_cons.mp hletters
    rw [List.foldr_cons]
    cases cs with
    | nil => exact before_of_letter hc hs
    | cons d ds => rw [ih hs.word (List.cons_ne_nil d ds) hcs, before_word hc]

theorem tokens_append (cs ds : List Char) : tokens (cs ++ ds) = cs.foldr before (tokens ds) :=
  List.foldr_append

/-- Splitting the text of tokens that keep apart gives the tokens back. -/
theorem tokens_flatten {ts : List Token} (hw : ∀ t ∈ ts, t.WellFormed) (hs : Separated ts) :
    tokens (flatten ts) = ts := by
  induction ts with
  | nil => rfl
  | cons t ts ih =>
    obtain ⟨ht, hts⟩ := List.forall_mem_cons.mp hw
    rw [flatten, List.flatMap_cons, tokens_append, ← flatten, ih hts hs.tail]
    cases t with
    | word letters => exact foldr_before_word ht hs
    | space => exact before_of_isBlank (by decide) hs
    | symbol c => exact before_of_isPunctuation ht ts

/-- The tokens of a text are the only ones that keep apart and whose text is that text with single
blanks. -/
theorem eq_tokens_iff {cs : List Char} {ts : List Token} :
    ts = tokens cs ↔ (∀ t ∈ ts, t.WellFormed) ∧ Separated ts ∧ flatten ts = squeeze cs := by
  constructor
  · rintro rfl
    exact ⟨wellFormed_tokens cs, separated_tokens cs, flatten_tokens cs⟩
  · rintro ⟨hw, hs, htext⟩
    calc ts = tokens (flatten ts) := (tokens_flatten hw hs).symm
      _ = tokens (flatten (tokens cs)) := by rw [htext, flatten_tokens]
      _ = tokens cs := tokens_flatten (wellFormed_tokens cs) (separated_tokens cs)

/-! ## Runs of white space -/

/-- The maximal runs of white space and of other characters, which give the text one after the
other. -/
def runs (cs : List Char) : List (List Char) := cs.splitBy fun a b => isBlank a == isBlank b

/-- A run of white space as one blank, any other run as it is. -/
def Run.single (run : List Char) : List Char := if run.all isBlank then [' '] else run

/-- A text with each maximal run of white space as one blank. -/
def singleBlanks (text : String) : String := String.ofList ((runs text.toList).flatMap Run.single)

theorem squeeze_cons_of_not_blank {c : Char} (hc : isBlank c = false) (cs : List Char) :
    squeeze (c :: cs) = c :: squeeze cs := by
  rw [squeeze, hc]
  rfl

/-- White space in front of a text that begins with none is one blank. -/
theorem squeeze_blanks {run cs : List Char} (hne : run ≠ []) (hrun : ∀ c ∈ run, isBlank c = true)
    (hcs : ∀ c ∈ cs.head?, isBlank c = false) : squeeze (run ++ cs) = ' ' :: squeeze cs := by
  induction run with
  | nil => exact absurd rfl hne
  | cons c run ih =>
    obtain ⟨hc, hrest⟩ := List.forall_mem_cons.mp hrun
    rw [List.cons_append, squeeze, hc]
    cases run with
    | cons d ds => rw [ih (List.cons_ne_nil d ds) hrest]; rfl
    | nil =>
      cases cs with
      | nil => rfl
      | cons d ds =>
        have hd : isBlank d = false := hcs d rfl
        have hne : d ≠ ' ' := by
          rintro rfl
          exact absurd hd (by decide)
        rw [List.nil_append, squeeze_cons_of_not_blank hd]
        simp [hne]

theorem squeeze_append {run : List Char} (hrun : ∀ c ∈ run, isBlank c = false) (cs : List Char) :
    squeeze (run ++ cs) = run ++ squeeze cs := by
  induction run with
  | nil => rfl
  | cons c run ih =>
    obtain ⟨hc, hrest⟩ := List.forall_mem_cons.mp hrun
    rw [List.cons_append, squeeze_cons_of_not_blank hc, ih hrest, List.cons_append]

/-- Whether it is white space is the same for all characters of a run. -/
theorem isBlank_of_isChain {c d : Char} {run : List Char}
    (h : (c :: run).IsChain fun a b => isBlank a == isBlank b) (hd : d ∈ c :: run) :
    isBlank d = isBlank c := by
  induction run generalizing c with
  | nil => rw [List.mem_singleton.mp hd]
  | cons e run ih =>
    obtain ⟨hce, hrest⟩ := List.isChain_cons_cons.mp h
    rcases List.mem_cons.mp hd with rfl | hd
    · rfl
    · rw [ih hrest hd, beq_iff_eq.mp hce]

/-- Runs of which no two neighbours are of white space or both of other characters, put together
and squeezed. -/
theorem squeeze_flatten {l : List (List Char)} (hne : [] ∉ l)
    (hruns : ∀ run ∈ l, run.IsChain fun a b => isBlank a == isBlank b)
    (hends : l.IsChain fun run next =>
      ∃ hrun hnext, (isBlank (run.getLast hrun) == isBlank (next.head hnext)) = false) :
    squeeze l.flatten = l.flatMap Run.single := by
  induction l with
  | nil => rfl
  | cons run l ih =>
    obtain ⟨hrun, hl⟩ := List.forall_mem_cons.mp hruns
    obtain ⟨hrunne, hlne⟩ := not_or.mp (List.mem_cons.not.mp hne)
    have ih := ih hlne hl hends.tail
    obtain ⟨c, cs, rfl⟩ := List.exists_cons_of_ne_nil (Ne.symm hrunne)
    rw [List.flatten_cons, List.flatMap_cons, ← ih, Run.single]
    cases hc : isBlank c with
    | true =>
      have hall : ∀ d ∈ c :: cs, isBlank d = true := fun d hd =>
        (isBlank_of_isChain hrun hd).trans hc
      rw [if_pos (List.all_eq_true.mpr hall)]
      refine squeeze_blanks (List.cons_ne_nil c cs) hall fun d hd => ?_
      -- What follows the run begins with the next run.
      cases l with
      | nil => cases hd
      | cons next l =>
        obtain ⟨hlast, hnext, hdiffer⟩ := (List.isChain_cons_cons.mp hends).1
        obtain ⟨e, es, rfl⟩ := List.exists_cons_of_ne_nil hnext
        obtain rfl : e = d := Option.some.inj hd
        rw [hall _ (List.getLast_mem hlast)] at hdiffer
        simpa using hdiffer
    | false =>
      have hall : ∀ d ∈ c :: cs, isBlank d = false := fun d hd =>
        (isBlank_of_isChain hrun hd).trans hc
      rw [if_neg (by simp [hc])]
      exact squeeze_append hall _

theorem squeeze_eq_runs (cs : List Char) : squeeze cs = (runs cs).flatMap Run.single := by
  obtain ⟨hflatten, hne, hruns, hends⟩ := List.splitBy_eq_iff.mp (rfl : runs cs = runs cs)
  exact (congrArg squeeze hflatten).trans (squeeze_flatten hne hruns hends)

/-! ## Blocks -/

/-- A block that stands for a piece of plain text. -/
inductive IsPiece : Block → Prop
  | word {text : String} : text ≠ "" →
      (∀ c ∈ text.toList, isBlank c = false ∧ isPunctuation c = false) → IsPiece (.word text)
  | space : IsPiece .space
  | symbol {c : Char} : isPunctuation c = true → IsPiece (.specialSymbol c)

/-- Not both are words, and not both are spaces. -/
def Apart (a b : Block) : Prop :=
  ¬ (a.tag = .leaf .word ∧ b.tag = .leaf .word) ∧ ¬ (a.tag = .leaf .space ∧ b.tag = .leaf .space)

/-- The text that a block stands for; a space is one blank. -/
def pieceText (b : Block) : String :=
  match b.kind with
  | .leaf (.word text) => text
  | .leaf .space => " "
  | .leaf (.specialSymbol c) => String.singleton c
  | _ => ""

/-- The text that blocks stand for. -/
def textOf (bs : List Block) : String := String.join (bs.map pieceText)

/-- The blocks are pieces that keep apart, and their text is the given one with each maximal run of
white space as one blank. -/
structure IsSplit (bs : List Block) (text : String) : Prop where
  pieces : ∀ b ∈ bs, IsPiece b
  apart : bs.IsChain Apart
  text_eq : textOf bs = singleBlanks text

/-- The block that stands for a token. -/
def Token.block (t : Token) : Block := ⟨t.kind, [], ∅⟩

theorem ofPlainText_eq (text : String) :
    Block.ofPlainText text = (tokens text.toList).map Token.block := by
  rw [Block.ofPlainText, kinds, List.map_map]
  rfl

theorem isPiece_iff {b : Block} : IsPiece b ↔ ∃ t : Token, t.WellFormed ∧ t.block = b := by
  constructor
  · rintro (⟨hne, hletters⟩ | - | hc)
    · rename_i text
      refine ⟨.word text.toList, ⟨fun h => hne (String.toList_eq_nil_iff.mp h), hletters⟩, ?_⟩
      rw [Token.block, Token.kind, String.ofList_toList]
      rfl
    · exact ⟨.space, trivial, rfl⟩
    · exact ⟨.symbol _, hc, rfl⟩
  · rintro ⟨t, ht, rfl⟩
    cases t with
    | word letters =>
      refine .word (fun h => ht.1 ?_) ?_
      · rw [← String.toList_ofList (l := letters), h]
        rfl
      · rw [String.toList_ofList]
        exact ht.2
    | space => exact .space
    | symbol c => exact .symbol ht

theorem apart_block_iff {s t : Token} : Apart s.block t.block ↔ s.Separate t := by
  cases s <;> cases t <;>
    simp [Apart, Token.block, Token.kind, Token.Separate, Block.tag, Kind.tag, Leaf.tag]

theorem separated_iff_isChain {ts : List Token} : Separated ts ↔ ts.IsChain Token.Separate := by
  induction ts with
  | nil => exact iff_of_true trivial .nil
  | cons t ts ih =>
    cases ts with
    | nil => exact iff_of_true trivial (.singleton t)
    | cons t' ts => rw [List.isChain_cons_cons, ← ih, Separated]

theorem textOf_map_block (ts : List Token) :
    textOf (ts.map Token.block) = String.ofList (flatten ts) := by
  induction ts with
  | nil => rfl
  | cons t ts ih =>
    have ht : pieceText t.block = String.ofList t.letters := by
      cases t with
      | word letters => rfl
      | space => rfl
      | symbol c => rfl
    rw [textOf, List.map_cons, List.map_cons, String.join_cons, ← textOf, ih, ht,
      ← String.ofList_append]
    rfl

theorem isSplit_map_block_iff {ts : List Token} {text : String} :
    IsSplit (ts.map Token.block) text ∧ (∀ t ∈ ts, t.WellFormed) ↔ ts = tokens text.toList := by
  have htext : textOf (ts.map Token.block) = singleBlanks text ↔
      flatten ts = squeeze text.toList := by
    rw [textOf_map_block, singleBlanks, ← squeeze_eq_runs, String.ofList_inj]
  have hapart : (ts.map Token.block).IsChain Apart ↔ Separated ts := by
    rw [List.isChain_map, separated_iff_isChain]
    simp only [apart_block_iff]
  rw [eq_tokens_iff]
  constructor
  · rintro ⟨⟨-, hchain, heq⟩, hw⟩
    exact ⟨hw, hapart.mp hchain, htext.mp heq⟩
  · rintro ⟨hw, hs, heq⟩
    refine ⟨⟨fun b hb => ?_, hapart.mpr hs, htext.mpr heq⟩, hw⟩
    obtain ⟨t, ht, rfl⟩ := List.mem_map.mp hb
    exact isPiece_iff.mpr ⟨t, hw t ht, rfl⟩

theorem exists_map_block {bs : List Block} (h : ∀ b ∈ bs, IsPiece b) :
    ∃ ts : List Token, (∀ t ∈ ts, t.WellFormed) ∧ ts.map Token.block = bs := by
  induction bs with
  | nil => exact ⟨[], by simp, rfl⟩
  | cons b bs ih =>
    obtain ⟨hb, hbs⟩ := List.forall_mem_cons.mp h
    obtain ⟨t, ht, rfl⟩ := isPiece_iff.mp hb
    obtain ⟨ts, hts, rfl⟩ := ih hbs
    exact ⟨t :: ts, List.forall_mem_cons.mpr ⟨ht, hts⟩, rfl⟩

/-! ## Main result -/

/-- **The blocks of a plain text are its only split.** The text of these blocks therefore has the
same blocks. -/
theorem isSplit_iff (text : String) :
    (∀ bs, IsSplit bs text ↔ bs = Block.ofPlainText text) ∧
      Block.ofPlainText (textOf (Block.ofPlainText text)) = Block.ofPlainText text := by
  refine ⟨fun bs => ⟨fun h => ?_, ?_⟩, ?_⟩
  · obtain ⟨ts, hw, rfl⟩ := exists_map_block h.pieces
    rw [isSplit_map_block_iff.mp ⟨h, hw⟩, ofPlainText_eq]
  · rintro rfl
    rw [ofPlainText_eq]
    exact (isSplit_map_block_iff.mpr rfl).1
  · rw [ofPlainText_eq text, textOf_map_block, ofPlainText_eq, String.toList_ofList,
      tokens_flatten (wellFormed_tokens _) (separated_tokens _)]

end DocTree.PlainText
