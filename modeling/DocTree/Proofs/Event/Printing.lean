import DocTree.Printer
import DocTree.Proofs.Block.Source
import DocTree.Proofs.Event.Nesting

/-!
# The printed events of a tree

The printer writes the texts of the events one after another (`deliverAll_printer`). An output that
takes everything holds them joined (`traverse_printer`), whatever the tree.

A line end follows every line but the end of a document. That leaves one line per event as long as
the only document is the whole tree, whose end is the last event. The line of a document further
below runs into the next one.

Main result: `eventText_ofSource`, with `eventText_documentInDocument` for a document in a document.
-/

namespace DocTree

/-! ## Texts written one after another -/

namespace Output

variable {σ : Type}

/-- Write texts in order, up to the first one that is refused. -/
def writeAll (out : Output σ) : List String → Step σ
  | [] => Step.skip
  | t :: ts => (out.write t).andThen (out.writeAll ts)

theorem writeAll_append (out : Output σ) (ts us : List String) :
    out.writeAll (ts ++ us) = (out.writeAll ts).andThen (out.writeAll us) := by
  induction ts with
  | nil => rfl
  | cons t ts ih => rw [List.cons_append, writeAll, writeAll, ih, Step.andThen_assoc]

theorem writeAll_text (ts : List String) (s : String) :
    text.writeAll ts s = (.ok (), s ++ String.join ts) := by
  induction ts generalizing s with
  | nil => rw [String.join_nil, String.append_empty]; rfl
  | cons t ts ih => rw [String.join_cons, ← String.append_assoc, ← ih]; rfl

end Output

namespace Listener

variable {σ : Type}

theorem deliver_printer (out : Output σ) (e : Event) :
    (printer out).deliver e = out.writeAll e.writes := by
  show (if e.endsDocument then out.write e.line else out.writeLine e.line) = _
  unfold Event.writes
  split <;> simp [Output.writeAll, Output.writeLine]

/-- The printer writes the texts of all events, in order. -/
theorem deliverAll_printer (out : Output σ) (es : List Event) :
    (printer out).deliverAll es = out.writeAll (es.flatMap Event.writes) := by
  induction es with
  | nil => rfl
  | cons e es ih =>
    rw [deliverAll, List.flatMap_cons, Output.writeAll_append, deliver_printer, ih]

end Listener

namespace Event

/-- The line of an event with the line end that is written after it, if one is. -/
def printed (e : Event) : String := if e.endsDocument then e.line else e.line ++ "\n"

theorem join_writes (es : List Event) :
    String.join (es.flatMap writes) = String.join (es.map printed) := by
  induction es with
  | nil => rfl
  | cons e es ih =>
    have he : String.join e.writes = e.printed := by
      unfold writes printed
      split <;> simp [String.join_cons]
    rw [List.flatMap_cons, String.join_append, ih, he, List.map_cons, String.join_cons]

end Event

/-- An output that takes everything holds the printed events of any tree. -/
theorem Listener.traverse_printer (b : Block) (s : String) :
    (printer Output.text).traverse b s =
      (.ok (), s ++ String.join (b.events.map Event.printed)) := by
  rw [traverse, deliverAll_printer, Output.writeAll_text, Event.join_writes]

theorem Block.eventText_eq (b : Block) :
    b.eventText = String.join (b.events.map Event.printed) := by
  rw [eventText, Listener.traverse_printer, String.empty_append]

/-! ## Lines -/

/-- Joining texts by a separator ends all but the last one with it. -/
theorem intercalate_concat (sep t : String) (ts : List String) :
    sep.intercalate (ts ++ [t]) = String.join (ts.map (· ++ sep)) ++ t := by
  induction ts with
  | nil => rw [List.nil_append, String.intercalate_singleton, List.map_nil, String.join_nil,
      String.empty_append]
  | cons u ts ih =>
    rw [List.cons_append, String.intercalate_cons_of_ne_nil (by simp), ih, List.map_cons,
      String.join_cons, ← String.append_assoc]

namespace Event

/-- An end of a document is one character short of a line. -/
theorem length_join_printed (es : List Event) :
    (String.join (es.map printed)).length + es.countP endsDocument =
      (String.join (es.map fun e => e.line ++ "\n")).length := by
  induction es with
  | nil => rfl
  | cons e es ih =>
    have he : e.printed.length + (if e.endsDocument then 1 else 0) = (e.line ++ "\n").length := by
      have hend : "\n".length = 1 := by decide
      unfold printed
      split <;> simp [hend]
    rw [List.map_cons, String.join_cons, String.length_append, List.countP_cons, List.map_cons,
      String.join_cons, String.length_append]
    omega

/-- Events are printed as their lines, each with a line end, if none of them ends a document. -/
theorem join_printed_eq_iff {es : List Event} :
    String.join (es.map printed) = String.join (es.map fun e => e.line ++ "\n") ↔
      ∀ e ∈ es, e.endsDocument = false := by
  constructor
  · intro h
    have hlen := length_join_printed es
    have hcount : es.countP endsDocument = 0 := by
      rw [h] at hlen
      omega
    exact fun e he => Bool.eq_false_iff.mpr (List.countP_eq_zero.mp hcount e he)
  · intro h
    refine congrArg String.join (List.map_congr_left fun e he => ?_)
    rw [printed, if_neg (Bool.eq_false_iff.mp (h e he))]

end Event

/-! ## Documents in a tree -/

namespace Block

/-- No event ends a document if there is no document in the blocks. These must be valid, as events
say nothing of what is below a leaf. -/
theorem endsDocument_eventsList {bs : List Block} (hv : ValidForest bs) :
    (∀ e ∈ eventsList bs, e.endsDocument = false) ↔
      ∀ b ∈ bs, b.All (·.tag ≠ .container .document) := by
  induction bs using forestInduction with
  | nil => simp [eventsList]
  | cons k cs ps bs ihc ihb =>
    obtain ⟨⟨hleaf, -⟩, hcs, hbs⟩ := validForest_cons_iff.mp hv
    cases k with
    | container c =>
      have hexit : Event.endsDocument (.exit (.ofBlock c ps)) = false ↔
          (⟨.container c, cs, ps⟩ : Block).tag ≠ .container .document := by
        cases c <;> simp [Event.endsDocument, Opening.ofBlock, tag, Kind.tag, Container.tag]
      have henter : Event.endsDocument (.enter (.ofBlock c ps)) = false := rfl
      simp only [eventsList, events, List.cons_append, List.forall_mem_cons, List.forall_mem_append,
        all_mk_iff, henter, hexit, ihc hcs, ihb hbs, true_and]
      tauto
    | leaf l =>
      obtain rfl := hleaf rfl
      have hevent : Event.endsDocument (.leaf (.ofBlock l ps)) = false := rfl
      simp [eventsList, events, all_mk_iff, hevent, ihb hbs, tag, Kind.tag]

/-! ## Main results -/

/-- A valid document is printed as lines joined by line ends if and only if there is no document
below its root. -/
theorem eventText_eq_intercalate_iff {m : StringMap} {cs : List Block} {ps : StringMap}
    (hv : ∀ c ∈ cs, c.Valid) :
    eventText ⟨.container (.document m), cs, ps⟩ =
        "\n".intercalate ((events ⟨.container (.document m), cs, ps⟩).map Event.line) ↔
      ∀ c ∈ cs, c.All (·.tag ≠ .container .document) := by
  let o := Opening.ofBlock (.document m) ps
  have hevents : events ⟨.container (.document m), cs, ps⟩ =
      (.enter o :: eventsList cs) ++ [.exit o] := rfl
  -- The end of the root is the last event, which has no line end on either side.
  have hexit : Event.printed (.exit o) = Event.line (.exit o) := if_pos rfl
  rw [eventText_eq, hevents, List.map_append, List.map_append, List.map_singleton,
    List.map_singleton, intercalate_concat, String.join_append, hexit, String.join_cons,
    String.join_nil, String.append_empty, String.append_left_inj, List.map_map]
  refine Event.join_printed_eq_iff.trans ?_
  rw [List.forall_mem_cons, endsDocument_eventsList hv]
  exact and_iff_right rfl

/-- **The printed document of a source** is the line of each event in order, with a line end after
all of them that do not end a document. These are lines joined by single line ends if and only if
there is no document below the root; otherwise the last line of one runs into the next line. -/
theorem eventText_ofSource {source : String} {d : Block} (h : ofSource source = .ok d) :
    (Listener.printer Output.text).traverse d "" = (.ok (), d.eventText) ∧
      d.eventText = String.join (d.events.map Event.printed) ∧
      (d.eventText = "\n".intercalate (d.events.map Event.line) ↔
        ∀ p x, d.get? p = some x → x.tag = .container .document → p = []) := by
  have hvalid := valid_of_ofSource h
  obtain ⟨m, cs, ps, rfl⟩ := exists_document_of_ofSource h
  refine ⟨?_, eventText_eq _, ?_⟩
  · rw [eventText, Listener.traverse_printer]
  · rw [only_root_iff (P := (·.tag = .container .document))]
    exact eventText_eq_intercalate_iff (valid_mk_iff.mp hvalid).2

/-- A paragraph, as the only child of a document. -/
theorem eventText_ofSource_paragraph :
    ofSource "\x7b\"type\":\"paragraph\"\x7d" =
        .ok (document (nameDialect .json ∅) [paragraph []]) ∧
      (document (nameDialect .json ∅) [paragraph []]).eventText =
        "beginDocument [[syntax]=[json/1.0]]\nbeginParagraph\nendParagraph\n" ++
          "endDocument [[syntax]=[json/1.0]]" := by
  have htext : "\x7b\"type\":\"paragraph\"\x7d" =
      (Json.object [("type", .string "paragraph")]).text := rfl
  have h : ofSource "\x7b\"type\":\"paragraph\"\x7d" =
      .ok (document (nameDialect .json ∅) [paragraph []]) := by
    rw [htext]
    exact ofSource_text (by simp [Json.Exact, Json.ExactMembers]) (by decide) (b := paragraph [])
      rfl (by decide)
  exact ⟨h, (eventText_ofSource h).2.1.trans (by decide +kernel)⟩

/-- The end of a document in a document stands in one line with what follows it. -/
theorem eventText_documentInDocument :
    ∃ d, ofSource
        "\x7b\"type\":\"document\",\"children\":[\x7b\"type\":\"document\"\x7d]\x7d" = .ok d ∧
      d.eventText = "beginDocument [[syntax]=[json/1.0]]\nbeginDocument\n" ++
        "endDocumentendDocument [[syntax]=[json/1.0]]" ∧
      d.eventText ≠ "\n".intercalate (d.events.map Event.line) := by
  have htext : "\x7b\"type\":\"document\",\"children\":[\x7b\"type\":\"document\"\x7d]\x7d" =
      (Json.object [("type", .string "document"),
        ("children", .array [.object [("type", .string "document")]])]).text := rfl
  refine ⟨document (nameDialect .json ∅) [document ∅ []], ?_, by decide +kernel,
    by decide +kernel⟩
  rw [htext]
  exact ofSource_text (by simp [Json.Exact, Json.ExactMembers, Json.ExactItems]) (by decide)
    (b := document ∅ [document ∅ []]) rfl (by decide)

end Block

end DocTree
