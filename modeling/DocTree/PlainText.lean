import DocTree.Block
import DocTree.Text.Blank

/-!
# Plain text as blocks

Plain text is a sequence of words, spaces and symbols: a run of white space is one space, each ASCII
punctuation character is a symbol, and what stands between is a word. `PlainText.flatten` is the
text of such a sequence, with one blank for each space.

Main statements: `flatten_tokens` says that the split loses only the length and the kind of white
space, and `separated_tokens` that neither two words nor two spaces are neighbours.
-/

namespace DocTree

/-- A piece of plain text. -/
inductive PlainText.Token
  | word (letters : List Char)
  | space
  | symbol (c : Char)
deriving DecidableEq, Repr

namespace PlainText

open Text

/-! ## Splitting -/

/-- Put a character before the tokens of the text after it. -/
def before (c : Char) (ts : List Token) : List Token :=
  if isBlank c then
    match ts with
    | .space :: _ => ts
    | _ => .space :: ts
  else if isPunctuation c then .symbol c :: ts
  else
    match ts with
    | .word letters :: rest => .word (c :: letters) :: rest
    | _ => .word [c] :: ts

def tokens (cs : List Char) : List Token := cs.foldr before []

@[simp] theorem tokens_nil : tokens [] = [] := rfl

@[simp] theorem tokens_cons (c : Char) (cs : List Char) :
    tokens (c :: cs) = before c (tokens cs) := rfl

/-! ## What a token may hold -/

/-- Words have letters, none of them white space or punctuation; symbols are punctuation. -/
def Token.WellFormed : Token → Prop
  | .word letters => letters ≠ [] ∧ ∀ c ∈ letters, isBlank c = false ∧ isPunctuation c = false
  | .space => True
  | .symbol c => isPunctuation c = true

theorem wellFormed_before {c : Char} {ts : List Token} (h : ∀ t ∈ ts, t.WellFormed) :
    ∀ t ∈ before c ts, t.WellFormed := by
  unfold before
  split
  · split
    · exact h
    · exact List.forall_mem_cons.mpr ⟨trivial, h⟩
  · split
    · exact List.forall_mem_cons.mpr ⟨by assumption, h⟩
    · rename_i hb hp
      have hc : isBlank c = false ∧ isPunctuation c = false := by simp_all
      split
      · rename_i letters rest
        rw [List.forall_mem_cons] at h ⊢
        exact ⟨⟨nofun, List.forall_mem_cons.mpr ⟨hc, h.1.2⟩⟩, h.2⟩
      · exact List.forall_mem_cons.mpr ⟨⟨nofun, by simpa using hc⟩, h⟩

theorem wellFormed_tokens (cs : List Char) : ∀ t ∈ tokens cs, t.WellFormed := by
  induction cs with
  | nil => simp
  | cons c cs ih => exact wellFormed_before ih

/-! ## Neighbours -/

/-- Two tokens that may stand side by side: no two words and no two spaces. -/
def Token.Separate : Token → Token → Prop
  | .word _, .word _ | .space, .space => False
  | _, _ => True

/-- Each token may stand beside the next one. -/
def Separated : List Token → Prop
  | [] | [_] => True
  | a :: b :: ts => a.Separate b ∧ Separated (b :: ts)

theorem separated_before {c : Char} {ts : List Token} (h : Separated ts) :
    Separated (before c ts) := by
  unfold before
  split
  · split
    · exact h
    · cases ts with
      | nil => trivial
      | cons t ts => cases t <;> simp_all [Separated, Token.Separate]
  · split
    · cases ts with
      | nil => trivial
      | cons t ts => exact ⟨trivial, h⟩
    · split
      · rename_i letters rest
        cases rest with
        | nil => trivial
        | cons t ts => cases t <;> simp_all [Separated, Token.Separate]
      · cases ts with
        | nil => trivial
        | cons t ts => cases t <;> simp_all [Separated, Token.Separate]

theorem separated_tokens (cs : List Char) : Separated (tokens cs) := by
  induction cs with
  | nil => trivial
  | cons c cs ih => exact separated_before ih

/-! ## The text of tokens -/

def Token.letters : Token → List Char
  | .word letters => letters
  | .space => [' ']
  | .symbol c => [c]

def flatten (ts : List Token) : List Char := ts.flatMap Token.letters

/-- Each run of white space as one blank. -/
def squeeze : List Char → List Char
  | [] => []
  | c :: cs =>
    if isBlank c then
      match squeeze cs with
      | ' ' :: rest => ' ' :: rest
      | rest => ' ' :: rest
    else c :: squeeze cs

theorem flatten_before {c : Char} {ts : List Token} (h : ∀ t ∈ ts, t.WellFormed)
    {cs : List Char} (ih : flatten ts = squeeze cs) :
    flatten (before c ts) = squeeze (c :: cs) := by
  have hspace : isBlank ' ' = true := by decide
  unfold before squeeze
  rw [← ih]
  split
  · cases ts with
    | nil => rfl
    | cons t ts =>
      have ht := h t List.mem_cons_self
      cases t with
      | space => rfl
      | word letters =>
        cases letters with
        | nil => exact absurd rfl ht.1
        | cons d ds =>
          have hd := ht.2 d List.mem_cons_self
          have : d ≠ ' ' := by rintro rfl; simp [hspace] at hd
          simp [flatten, Token.letters, this]
      | symbol d =>
        have hd : isPunctuation d = true := ht
        have : d ≠ ' ' := by rintro rfl; simp [not_isBlank_of_isPunctuation hd] at hspace
        simp [flatten, Token.letters, this]
  · split
    · rfl
    · split <;> rfl

theorem flatten_tokens (cs : List Char) : flatten (tokens cs) = squeeze cs := by
  induction cs with
  | nil => rfl
  | cons c cs ih => exact flatten_before (wellFormed_tokens cs) ih

/-! ## Blocks -/

def Token.kind : Token → Kind
  | .word letters => .leaf (.word (String.ofList letters))
  | .space => .leaf .space
  | .symbol c => .leaf (.specialSymbol c)

/-- The kinds of the blocks that stand for a text. -/
def kinds (text : String) : List Kind := (tokens text.toList).map Token.kind

end PlainText

/-- The blocks that stand for a plain text. -/
def Block.ofPlainText (text : String) : List Block :=
  (PlainText.kinds text).map fun k => ⟨k, [], ∅⟩

end DocTree
