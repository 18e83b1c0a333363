import DocTree.Event.Line
import DocTree.Listener

/-!
# Printing events

An output takes texts in separate writes, each of which it accepts or refuses as a whole. The event
printer writes one line per event: the text and the line end are two writes, and no line end follows
the end of a document.
-/

namespace DocTree

/-! ## Outputs -/

/-- A place to write to, with a state of type `σ`. -/
structure Output (σ : Type) where
  write : String → Step σ

namespace Output

variable {σ : Type}

/-- A text and a line end, in two writes. -/
def writeLine (out : Output σ) (text : String) : Step σ :=
  (out.write text).andThen (out.write "\n")

/-- Collects everything in a text. -/
def text : Output String where
  write s := Step.update (· ++ s)

/-- What a limited output has accepted, and how many bytes it still takes. -/
structure Limited where
  accepted : String := ""
  room : Nat
deriving DecidableEq, Repr

/-- The message of an output without room. -/
def fullMessage : String := "sink full"

/-- Refuses, as a whole, a write that has more bytes than there is room for. -/
def limited : Output Limited where
  write s := fun o =>
    if s.utf8ByteSize ≤ o.room then
      (.ok (), ⟨o.accepted ++ s, o.room - s.utf8ByteSize⟩)
    else (.error (.output fullMessage), o)

end Output

/-! ## The event printer -/

namespace Event

/-- The texts written for an event. -/
def writes (e : Event) : List String := if e.endsDocument then [e.line] else [e.line, "\n"]

end Event

namespace Listener

/-- Writes a line for every event. -/
def printer {σ : Type} (out : Output σ) : Listener σ where
  general e := if e.endsDocument then out.write e.line else out.writeLine e.line

end Listener

namespace Block

/-- The printed events of a tree. -/
def eventText (b : Block) : String :=
  ((Listener.printer Output.text).traverse b "").2

/-- The printed events of a tree on an output with room for a number of bytes. -/
def eventTextWithin (room : Nat) (b : Block) :
    Outcome × Output.Limited :=
  (Listener.printer Output.limited).traverse b { room }

end Block

end DocTree
