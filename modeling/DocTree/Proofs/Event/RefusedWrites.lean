import DocTree.Proofs.Event.Printing
import DocTree.Proofs.Listener.Source

/-!
# Printing on outputs that refuse

An output may refuse any write. `Output.recorded` is the same output with a record of all texts that
it is handed, each with what became of it.

**Any output** is handed the texts of a tree in their order, up to the first one that it refuses and
nothing after that. What it has accepted is what comes before (`Output.Run`). The refusal is the
outcome, whatever the depth at which the printer was; read from a source, it is the listener's.

**A limited output** refuses none of the texts if and only if there is room for all of them
(`Output.writeAll_limited_ok_iff`).

Main result: `traverse_printer_run`.
-/

namespace DocTree

namespace Output

variable {σ : Type}

/-! ## Records -/

/-- Keeps a record of the texts that it is handed, each with what became of it. -/
def recorded (out : Output σ) : Output (List (String × Outcome) × σ) where
  write t s :=
    ((out.write t s.2).1, (s.1 ++ [(t, (out.write t s.2).1)], (out.write t s.2).2))

/-- The accepted texts of a record, one after another. -/
def accepted (record : List (String × Outcome)) : String :=
  String.join ((record.filter fun w => w.2.isOk).map Prod.fst)

theorem accepted_append (as bs : List (String × Outcome)) :
    accepted (as ++ bs) = accepted as ++ accepted bs := by
  rw [accepted, List.filter_append, List.map_append, String.join_append]
  rfl

theorem accepted_singleton_ok (t : String) : accepted [(t, .ok ())] = t := by
  show String.join [t] = t
  rw [String.join_cons, String.join_nil, String.append_empty]

theorem accepted_singleton_error (t : String) (err : ListenerError) :
    accepted [(t, .error err)] = "" := rfl

theorem accepted_map_ok (ts : List String) :
    accepted (ts.map fun t => (t, .ok ())) = String.join ts := by
  induction ts with
  | nil => rfl
  | cons t ts ih =>
    rw [List.map_cons, ← List.singleton_append, accepted_append, accepted_singleton_ok, ih,
      String.join_cons]

/-- How the writing of texts may end: with the outcome, the record of the writes and the text that
was accepted. -/
inductive Run (ts : List String) : Outcome → List (String × Outcome) → String → Prop
  /-- All were accepted. -/
  | complete : Run ts (.ok ()) (ts.map fun t => (t, .ok ())) (String.join ts)
  /-- One was refused after those in front of it, and nothing was written after it. -/
  | refused {front rest : List String} {t : String} {err : ListenerError} :
      ts = front ++ t :: rest →
      Run ts (.error err) (front.map (fun t => (t, .ok ())) ++ [(t, .error err)])
        (String.join front)

namespace Run

variable {t text : String} {ts : List String} {r : Outcome} {record : List (String × Outcome)}

/-- One more text, which is accepted, in front. -/
theorem cons (h : Run ts r record text) :
    Run (t :: ts) r ((t, .ok ()) :: record) (t ++ text) := by
  cases h with
  | complete =>
    rw [← String.join_cons]
    exact .complete
  | @refused front rest u err hts =>
    rw [← String.join_cons]
    exact @Run.refused _ (t :: front) rest u err (congrArg (t :: ·) hts)

/-- The text is that of the accepted writes. -/
theorem accepted_eq (h : Run ts r record text) : accepted record = text := by
  cases h with
  | complete => exact accepted_map_ok ts
  | refused hts =>
    rw [accepted_append, accepted_map_ok, accepted_singleton_error, String.append_empty]

/-- All went well if and only if no write was refused. -/
theorem ok_iff (h : Run ts r record text) : r = .ok () ↔ ∀ w ∈ record, w.2 = .ok () := by
  cases h with
  | complete =>
    refine iff_of_true rfl fun w hw => ?_
    obtain ⟨t, -, rfl⟩ := List.mem_map.mp hw
    rfl
  | @refused front rest u err hts =>
    refine iff_of_false nofun fun hall => ?_
    exact nomatch hall (u, .error err) (List.mem_append_right _ List.mem_cons_self)

end Run

/-! ## Writing -/

theorem writeAll_cons_of_ok {out : Output σ} {t : String} {s : σ} (h : (out.write t s).1 = .ok ())
    (ts : List String) : out.writeAll (t :: ts) s = out.writeAll ts (out.write t s).2 :=
  Step.andThen_of_ok h

theorem writeAll_cons_of_error {out : Output σ} {t : String} {s : σ} {err : ListenerError}
    (h : (out.write t s).1 = .error err) (ts : List String) :
    out.writeAll (t :: ts) s = (.error err, (out.write t s).2) :=
  Step.andThen_of_error h

/-- The record apart, an output that keeps one does the same. -/
theorem writeAll_recorded (out : Output σ) (ts : List String) (log : List (String × Outcome))
    (s : σ) :
    ∃ record, Run ts (out.writeAll ts s).1 record (accepted record) ∧
      out.recorded.writeAll ts (log, s) =
        ((out.writeAll ts s).1, (log ++ record, (out.writeAll ts s).2)) := by
  induction ts generalizing log s with
  | nil => exact ⟨[], .complete, by rw [List.append_nil]; rfl⟩
  | cons t ts ih =>
    cases h : (out.write t s).1 with
    | ok u =>
      have hrec : (out.recorded.write t (log, s)).1 = .ok () := h
      obtain ⟨record, hrun, heq⟩ := ih (log ++ [(t, .ok ())]) (out.write t s).2
      refine ⟨(t, .ok ()) :: record, ?_, ?_⟩
      · have hcons := hrun.cons (t := t)
        rw [writeAll_cons_of_ok h, hcons.accepted_eq]
        exact hcons
      · rw [writeAll_cons_of_ok hrec, writeAll_cons_of_ok h]
        show out.recorded.writeAll ts (log ++ [(t, (out.write t s).1)], (out.write t s).2) = _
        rw [h, heq, List.append_assoc, List.singleton_append]
    | error err =>
      have hrec : (out.recorded.write t (log, s)).1 = .error err := h
      refine ⟨[(t, .error err)], ?_, ?_⟩
      · rw [writeAll_cons_of_error h]
        exact @Run.refused (t :: ts) [] ts t err rfl
      · rw [writeAll_cons_of_error hrec, writeAll_cons_of_error h]
        show (_, (log ++ [(t, (out.write t s).1)], (out.write t s).2)) = _
        rw [h]

/-- What every write keeps, all writes keep. -/
theorem writeAll_induction (out : Output σ) {P : σ → Prop}
    (hwrite : ∀ t s, P s → P (out.write t s).2) (ts : List String) {s : σ} (hs : P s) :
    P (out.writeAll ts s).2 := by
  induction ts generalizing s with
  | nil => exact hs
  | cons t ts ih =>
    cases h : (out.write t s).1 with
    | ok u =>
      rw [writeAll_cons_of_ok h]
      exact ih (hwrite t s hs)
    | error err =>
      rw [writeAll_cons_of_error h]
      exact hwrite t s hs

/-! ## Limited outputs -/

theorem write_limited_of_le {t : String} {o : Limited} (h : t.utf8ByteSize ≤ o.room) :
    limited.write t o = (.ok (), ⟨o.accepted ++ t, o.room - t.utf8ByteSize⟩) :=
  if_pos h

theorem write_limited_of_lt {t : String} {o : Limited} (h : o.room < t.utf8ByteSize) :
    limited.write t o = (.error (.output fullMessage), o) :=
  if_neg (Nat.not_le_of_lt h)

/-- All texts are accepted if and only if there is room for all of them together. -/
theorem writeAll_limited_ok_iff (ts : List String) (o : Limited) :
    (limited.writeAll ts o).1 = .ok () ↔ (String.join ts).utf8ByteSize ≤ o.room := by
  induction ts generalizing o with
  | nil => exact iff_of_true rfl (Nat.zero_le _)
  | cons t ts ih =>
    rw [String.join_cons, String.utf8ByteSize_append]
    by_cases ht : t.utf8ByteSize ≤ o.room
    · have hok : (limited.write t o).1 = .ok () := by rw [write_limited_of_le ht]
      rw [writeAll_cons_of_ok hok, write_limited_of_le ht, ih]
      show _ ≤ o.room - t.utf8ByteSize ↔ _
      omega
    · have herr : (limited.write t o).1 = .error (.output fullMessage) := by
        rw [write_limited_of_lt (Nat.lt_of_not_le ht)]
      rw [writeAll_cons_of_error herr]
      exact iff_of_false nofun (by omega)

/-- What a limited output holds is what its record says was accepted. -/
theorem accepted_writeAll_limited (ts : List String) (room : Nat) :
    (limited.writeAll ts { room }).2.accepted =
      accepted (limited.recorded.writeAll ts ([], { room })).2.1 := by
  have hwrite : ∀ (t : String) (s : List (String × Outcome) × Limited),
      s.2.accepted = accepted s.1 →
        (limited.recorded.write t s).2.2.accepted = accepted (limited.recorded.write t s).2.1 := by
    intro t s hs
    show (limited.write t s.2).2.accepted = accepted (s.1 ++ [(t, (limited.write t s.2).1)])
    rw [accepted_append, ← hs]
    by_cases ht : t.utf8ByteSize ≤ s.2.room
    · rw [write_limited_of_le ht, accepted_singleton_ok]
    · rw [write_limited_of_lt (Nat.lt_of_not_le ht), accepted_singleton_error, String.append_empty]
  have hkept := writeAll_induction limited.recorded hwrite ts (s := ([], { room })) rfl
  obtain ⟨record, -, heq⟩ := writeAll_recorded limited ts [] { room }
  rw [heq] at hkept ⊢
  exact hkept

end Output

/-! ## Main result -/

/-- **A tree is printed up to the first refusal.** Whatever the output, it is handed the texts of the
tree in order up to the first one that it refuses, and the refusal is the outcome; all goes well if
and only if nothing is refused, and then the whole text is accepted. Where the tree is the document
of a source, the outcome of reading it is the same, as one of the listener. A limited output holds
what it has accepted, and refuses nothing if and only if the text has room. -/
theorem Listener.traverse_printer_run (b : Block) :
    (∀ (σ : Type) (out : Output σ) (s : σ), ∃ record,
      (printer out.recorded).traverse b ([], s) =
          (((printer out).traverse b s).1, (record, ((printer out).traverse b s).2)) ∧
        Output.Run (b.events.flatMap Event.writes) ((printer out).traverse b s).1 record
          (Output.accepted record) ∧
        (((printer out).traverse b s).1 = .ok () ↔ ∀ w ∈ record, w.2 = .ok ()) ∧
        ∀ source, Block.ofSource source = .ok b →
          (printer out).readSource source s =
            (((printer out).traverse b s).1.mapError .listener, ((printer out).traverse b s).2)) ∧
      String.join (b.events.flatMap Event.writes) = b.eventText ∧
      ∀ room, ((b.eventTextWithin room).1 = .ok () ↔ b.eventText.utf8ByteSize ≤ room) ∧
        (b.eventTextWithin room).2.accepted = Output.accepted
          ((printer Output.limited.recorded).traverse b ([], { room })).2.1 := by
  have htext : String.join (b.events.flatMap Event.writes) = b.eventText := by
    rw [Event.join_writes, Block.eventText_eq]
  refine ⟨fun σ out s => ?_, htext, fun room => ⟨?_, ?_⟩⟩
  · obtain ⟨record, hrun, heq⟩ :=
      Output.writeAll_recorded out (b.events.flatMap Event.writes) [] s
    rw [traverse, traverse, deliverAll_printer, deliverAll_printer]
    refine ⟨record, heq, hrun, hrun.ok_iff, fun source hsource => ?_⟩
    rw [readSource_of_ok hsource, traverse, deliverAll_printer]
  · rw [Block.eventTextWithin, traverse, deliverAll_printer, Output.writeAll_limited_ok_iff, htext]
  · rw [Block.eventTextWithin, traverse, traverse, deliverAll_printer, deliverAll_printer]
    exact Output.accepted_writeAll_limited _ room

/-- A limited output with room for two lines, but not for the end of the second one. -/
theorem Listener.traverse_printer_run_paragraph :
    Block.ofSource "\x7b\"type\":\"paragraph\"\x7d" =
        .ok (Block.document (Block.nameDialect .json ∅) [Block.paragraph []]) ∧
      (printer Output.limited).readSource "\x7b\"type\":\"paragraph\"\x7d" { room := 50 } =
        (.error (.listener (.output "sink full")),
          ⟨"beginDocument [[syntax]=[json/1.0]]\nbeginParagraph", 0⟩) := by
  have htext : "\x7b\"type\":\"paragraph\"\x7d" =
      (Json.object [("type", .string "paragraph")]).text := rfl
  have h : Block.ofSource "\x7b\"type\":\"paragraph\"\x7d" =
      .ok (Block.document (Block.nameDialect .json ∅) [Block.paragraph []]) := by
    rw [htext]
    exact Block.ofSource_text (by simp [Json.Exact, Json.ExactMembers]) (by decide)
      (b := Block.paragraph []) rfl (by decide)
  obtain ⟨record, -, -, -, hsource⟩ :=
    (traverse_printer_run (Block.document (Block.nameDialect .json ∅) [Block.paragraph []])).1
      _ Output.limited { room := 50 }
  exact ⟨h, (hsource _ h).trans (by decide +kernel)⟩

end DocTree
