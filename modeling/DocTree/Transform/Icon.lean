import DocTree.PlainText
import DocTree.Ranking
import DocTree.Transform

/-!
# Icons for text

An icon rule has a pattern, the kinds of the blocks that stand for a text such as `:)`. Wherever the
kinds of neighbouring siblings are those of a pattern, one image of the icon takes their place. Of
the patterns that fit at a sibling the longest wins, and of equal ones that of the smallest text.
-/

namespace DocTree

/-- An image of an icon for a run of siblings. -/
structure IconRule where
  pattern : List Kind
  icon : String
deriving DecidableEq

namespace IconRule

def image (r : IconRule) : Block :=
  Block.image { reference := Reference.ofKind r.icon .icon, freeStanding := true }

/-- The kinds are those of the first siblings. -/
def startsWith : List Kind → List Block → Bool
  | [], _ => true
  | _ :: _, [] => false
  | k :: ks, b :: bs => decide (b.kind = k) && startsWith ks bs

theorem startsWith_iff {ks : List Kind} {bs : List Block} :
    startsWith ks bs = true ↔ ks <+: bs.map (·.kind) := by
  induction ks generalizing bs with
  | nil => simp [startsWith]
  | cons k ks ih =>
    cases bs with
    | nil => simp [startsWith]
    | cons b bs => simp [startsWith, ih, List.cons_prefix_cons, eq_comm (a := b.kind)]

def fits (r : IconRule) (siblings : List Block) : Bool := startsWith r.pattern siblings

/-- The rule for a text; a text without blocks has none. -/
def ofText? (text icon : String) : Option IconRule :=
  match PlainText.kinds text with
  | [] => none
  | pattern => some { pattern, icon }

theorem pattern_ne_nil_of_ofText? {text icon : String} {r : IconRule}
    (h : ofText? text icon = some r) : r.pattern ≠ [] := by
  unfold ofText? at h
  split at h
  · cases h
  · cases h; assumption

end IconRule

/-! ## Tables of rules -/

/-- Icons for texts. -/
abbrev IconNames := StringMap

def IconNames.standard : IconNames :=
  KeyMap.ofList [(":)", "emoticon_smile"), (":(", "emoticon_unhappy"), (":P", "emoticon_tongue"),
    (":D", "emoticon_grin"), (";)", "emoticon_wink"), ("(y)", "thumb_up"), ("(n)", "thumb_down"),
    ("(i)", "information"), ("(/)", "accept"), ("(x)", "cancel"), ("(!)", "error"), ("(+)", "add"),
    ("(-)", "delete"), ("(?)", "help"), ("(on)", "lightbulb"), ("(off)", "lightbulb_off"),
    ("(*)", "star")]

/-- Rules, longest pattern first. -/
abbrev IconTable := List IconRule

namespace IconTable

/-- The rules for texts, with rules of equal length in the order of the texts. -/
def ofNames (names : IconNames) : IconTable :=
  Ranking.ofList (fun r => -(r.pattern.length : Int))
    (names.entries.filterMap fun e => IconRule.ofText? e.1 e.2)

/-- The standard rules and those for more texts, which win over standard ones for the same text. -/
def withExtra (extra : IconNames) : IconTable := ofNames (IconNames.standard.override extra)

def fitting? (t : IconTable) (siblings : List Block) : Option IconRule :=
  t.find? fun r => r.fits siblings

end IconTable

/-! ## Substitution -/

namespace Block

mutual
/-- The tree with icons for the texts of a table. -/
def withIcons (t : IconTable) : Block → Block
  | ⟨k, cs, ps⟩ => ⟨k, withIconsFrom t 0 cs, ps⟩
/-- Siblings with icons, of which the first `covered` stand under an icon already. -/
def withIconsFrom (t : IconTable) (covered : Nat) : List Block → List Block
  | [] => []
  | b :: bs =>
    match covered with
    | n + 1 => withIconsFrom t n bs
    | 0 =>
      match t.fitting? (b :: bs) with
      | some r => r.image :: withIconsFrom t (r.pattern.length - 1) bs
      | none => b.withIcons t :: withIconsFrom t 0 bs
end

theorem withIconsFrom_eq_drop (t : IconTable) (n : Nat) (bs : List Block) :
    withIconsFrom t n bs = withIconsFrom t 0 (bs.drop n) := by
  induction n generalizing bs with
  | zero => rfl
  | succ n ih =>
    cases bs with
    | nil => rfl
    | cons b bs => simp only [withIconsFrom, List.drop_succ_cons]; exact ih bs

end Block

/-- Substitution of icons as a pass. -/
def IconTable.pass (t : IconTable) : Pass where
  name := "icon"
  priority := 500
  restrictedSafe := true
  run _ tree := { tree := tree.withIcons t }

end DocTree
