import DocTree.Block.Path
import DocTree.Transform

/-!
# Macros

A macro produces blocks from a call. It sees the call's parameters, content and place, the tree
around it and the context of the run.
-/

namespace DocTree

/-- What a macro is given. -/
structure Invocation where
  parameters : StringMap
  content : Option String
  inline : Bool
  /-- The tree in which the call stands. -/
  root : Block
  /-- The position of the call. -/
  path : Path
  context : Context

structure Macro where
  /-- Calls are expanded by ascending priority of their macros. -/
  priority : Nat := 1000
  /-- The macro may be called inside a line. -/
  inlineSupported : Bool := true
  /-- The macro may run on trees that are not trusted. -/
  restrictedSafe : Bool := false
  run : Invocation → Except MacroError (List Block)

/-- Macros by name. -/
abbrev MacroTable := KeyMap Macro

namespace MacroTable

/-- The macro of a name, if calls of it are to be expanded in a context. -/
def expandable? (t : MacroTable) (ctx : Context) (name : String) : Option Macro :=
  match t.get? name with
  | some m => if !ctx.restricted || m.restrictedSafe then some m else none
  | none => none

theorem expandable?_eq_some_iff {t : MacroTable} {ctx : Context} {name : String} {m : Macro} :
    t.expandable? ctx name = some m ↔
      t.get? name = some m ∧ (ctx.restricted = true → m.restrictedSafe = true) := by
  rw [expandable?]
  cases t.get? name with
  | none => simp
  | some m' =>
    have hor : (ctx.restricted = false ∨ m'.restrictedSafe = true) ↔
        (ctx.restricted = true → m'.restrictedSafe = true) := by
      cases ctx.restricted <;> simp
    simp only [Bool.or_eq_true, Bool.not_eq_true', Option.ite_none_right_eq_some,
      Option.some.injEq, hor]
    constructor
    · rintro ⟨h, rfl⟩
      exact ⟨rfl, h⟩
    · rintro ⟨rfl, h⟩
      exact ⟨h, rfl⟩

end MacroTable

end DocTree
