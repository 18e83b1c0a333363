import DocTree.Macro

/-!
# Macro expansion

The calls of a tree are expanded one at a time. Each expansion puts a marker with the produced
blocks in the place of the call, and then only the marker is searched for further calls. Calls that
wait are remembered by position, so a call that has vanished with the call around it is passed over
when its turn comes.

Expansion ends when no call waits, when a given number of steps has been made, or with the first
failure. It leaves, beside the tree, a record of the macros that ran.
-/

namespace DocTree

/-! ## Waiting calls -/

/-- A call that waits: its position, the name under which it was found, and the priority of its
macro. -/
structure PendingCall where
  path : Path
  name : String
  priority : Nat
deriving DecidableEq, Repr

namespace PendingCall

/-- The call is not after another one: by priority, then by position in the document. -/
def notAfter (a b : PendingCall) : Bool :=
  a.priority < b.priority || (a.priority == b.priority && !b.path.lex a.path)

/-- The index and the value of the first call that no other one precedes. -/
def first? : List PendingCall → Option (Nat × PendingCall)
  | [] => none
  | a :: as =>
    match first? as with
    | none => some (0, a)
    | some (i, b) => if a.notAfter b then some (0, a) else some (i + 1, b)

/-- The calls without the one at an index, whose place the last call takes. -/
def dropAt (calls : List PendingCall) (index : Nat) : List PendingCall :=
  match calls.getLast? with
  | none => []
  | some last => (calls.set index last).dropLast

/-- The next call in turn, and the others. -/
def takeNext? (calls : List PendingCall) : Option (PendingCall × List PendingCall) :=
  (first? calls).map fun (i, a) => (a, dropAt calls i)

end PendingCall

/-- The calls to expand in the subtree at a position, in document order. -/
def Block.pendingCalls (t : MacroTable) (ctx : Context) (root : Block) (base : Path) :
    List PendingCall :=
  match root.get? base with
  | none => []
  | some top =>
    top.paths.filterMap fun p =>
      match (top.get? p).bind Block.call? with
      | none => none
      | some call =>
        (t.expandable? ctx call.name).map fun m =>
          { path := base ++ p, name := call.name, priority := m.priority }

/-! ## One step -/

/-- A macro that ran, and on what. -/
structure Execution where
  name : String
  invocation : Invocation

/-- What comes of one call: the execution, if a macro ran, and the new tree. -/
structure Attempt where
  execution : Option Execution := none
  result : Except TransformError Block

/-- Expand a waiting call. If no call stands at its position any more, nothing happens. -/
def MacroTable.attempt (t : MacroTable) (ctx : Context) (root : Block) (next : PendingCall) :
    Attempt :=
  match root.get? next.path with
  | none => { result := .ok root }
  | some b =>
    match b.call?, t.get? next.name with
    | some call, some m =>
      if call.inline && !m.inlineSupported then
        { result := .error (.expansion next.name .inlineNotSupported) }
      else
        let invocation : Invocation :=
          { parameters := b.parameters, content := call.content, inline := call.inline, root
            path := next.path, context := ctx }
        { execution := some { name := next.name, invocation }
          result :=
            match m.run invocation with
            | .error e => .error (.expansion next.name e)
            | .ok produced =>
              let marker := Block.macroMarker { call with name := next.name } b.parameters produced
              .ok ((root.edit? (fun _ => marker) next.path).getD root) }
    | _, _ => { result := .ok root }

/-! ## All steps -/

/-- What an expansion leaves. -/
structure Expansion extends Transformed where
  /-- The calls that still wait. -/
  pending : List PendingCall := []
  /-- The steps that were made without a failure. -/
  steps : Nat := 0
  /-- The macros that ran, in order. -/
  executions : List Execution := []

namespace Expansion

/-- Take the next call in turn and expand it. -/
def step (t : MacroTable) (ctx : Context) (next : PendingCall) (others : List PendingCall)
    (x : Expansion) : Expansion :=
  let a := t.attempt ctx x.tree next
  let executions := x.executions ++ a.execution.toList
  match a.result with
  | .error e => { x with failure := some e, pending := others, executions }
  | .ok tree =>
    { tree, pending := others ++ tree.pendingCalls t ctx next.path, steps := x.steps + 1
      executions }

/-- Make at most `room` steps, until no call waits or one fails. -/
def run (t : MacroTable) (ctx : Context) : Nat → Expansion → Expansion
  | 0, x => x
  | room + 1, x =>
    match PendingCall.takeNext? x.pending with
    | none => x
    | some (next, others) =>
      let y := x.step t ctx next others
      match y.failure with
      | some _ => y
      | none => run t ctx room y

/-- The start: all calls of a tree wait. -/
def ofTree (t : MacroTable) (ctx : Context) (tree : Block) : Expansion :=
  { tree, pending := tree.pendingCalls t ctx [] }

end Expansion

namespace MacroTable

/-- Expand the macro calls of a tree in at most `maxSteps` steps. -/
def expand (t : MacroTable) (maxSteps : Nat) (ctx : Context) (tree : Block) : Expansion :=
  (Expansion.ofTree t ctx tree).run t ctx maxSteps

/-- The number of steps that a run may make unless settings say otherwise. -/
def standardMaxSteps : Nat := 100

/-- Expansion as a pass. It is safe on any tree because it leaves calls of unsafe macros alone. -/
def pass (t : MacroTable) (maxSteps : Nat) : Pass where
  name := "macro"
  priority := 100
  restrictedSafe := true
  run ctx tree := (t.expand maxSteps ctx tree).toTransformed

end MacroTable

end DocTree
