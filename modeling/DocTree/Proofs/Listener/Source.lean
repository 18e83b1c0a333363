import DocTree.Proofs.Block.Expressible
import DocTree.Proofs.Block.Source
import DocTree.Proofs.Listener.Runs

/-!
# Sources read into listeners

**The document.** A source is a written tree. If events can express the tree, its document is the
tree itself where that is a document, with its dialect named if it was not, and otherwise a document
around the tree (`Block.IsDocumentOf`). It is valid as well. If they cannot, the source is refused
with the first fault of the tree: no document is put around the tree before the search, so that the
position of the fault is a position in the tree.

**The events.** A listener is handed the events of the document up to the first one that it refuses,
and none if there is no document.

Main result: `readSource_document`.
-/

namespace DocTree

namespace Block

/-! ## The document of a tree -/

/-- The metadata with the dialect of the source, where they named none. -/
theorem get?_nameDialect (m : StringMap) (key : String) :
    (nameDialect .json m).get? key =
      (m.get? key).or (if key = "syntax" then some "json/1.0" else none) := by
  have hjson : Dialect.json.idText = "json/1.0" := Dialect.idText_ofParts "json" "1.0"
  show _ = (m.get? key).or (if key = dialectKey then some "json/1.0" else none)
  unfold nameDialect KeyMap.contains
  split
  · rename_i h
    split
    · rename_i hkey
      obtain ⟨value, hvalue⟩ := Option.isSome_iff_exists.mp h
      rw [hkey, hvalue, Option.some_or]
    · rw [Option.or_none]
  · rename_i h
    rw [KeyMap.get?_insert, hjson]
    split
    · rename_i hkey
      rw [hkey, Option.not_isSome_iff_eq_none.mp h, Option.none_or]
    · rw [Option.or_none]

/-- The document of a tree: the tree with a dialect named, if it is a document, or a document with
nothing but a dialect and the tree as its only child. -/
inductive IsDocumentOf (b : Block) : Block → Prop
  | named {m m' : StringMap} {cs : List Block} {ps : StringMap} :
      b = ⟨.container (.document m), cs, ps⟩ →
      (∀ key, m'.get? key =
        (m.get? key).or (if key = "syntax" then some "json/1.0" else none)) →
      b.IsDocumentOf ⟨.container (.document m'), cs, ps⟩
  | around : b.tag ≠ .container .document →
      b.IsDocumentOf ⟨.container (.document (KeyMap.ofList [("syntax", "json/1.0")])), [b], ∅⟩

theorem isDocumentOf_toDocument (b : Block) : b.IsDocumentOf (b.toDocument .json) := by
  obtain ⟨k, cs, ps⟩ := b
  cases k with
  | container c =>
    cases c with
    | document m => exact .named rfl (get?_nameDialect m)
    | _ => exact .around (by simp [tag, Kind.tag, Container.tag])
  | leaf l => exact .around (by simp [tag, Kind.tag])

/-- A document names a dialect in its metadata. -/
theorem IsDocumentOf.names {b d : Block} (h : b.IsDocumentOf d) :
    ∃ m cs ps name, d = ⟨.container (.document m), cs, ps⟩ ∧ m.get? "syntax" = some name := by
  cases h with
  | @named m m' cs ps hb hget =>
    have hname := hget "syntax"
    rw [if_pos rfl] at hname
    cases hm : m.get? "syntax" with
    | none => exact ⟨m', cs, ps, _, rfl, by rw [hname, hm]; rfl⟩
    | some name => exact ⟨m', cs, ps, name, rfl, by rw [hname, hm]; rfl⟩
  | around => exact ⟨_, _, _, "json/1.0", rfl, by decide⟩

/-- The block at the position of a fault has that fault. -/
theorem exists_of_fault? {b : Block} {f : Fault} (h : b.fault? = some f) :
    ∃ x, b.get? f.path = some x ∧ x.tag = f.tag ∧ (x.HidesChildren ∨ x.HidesParameters) := by
  obtain ⟨x, hx, hides, hf⟩ := faultAt?_eq_some_iff.mp (fault?_eq_some_iff.mp h).2
  exact ⟨x, hx, (congrArg Fault.tag hf).symm, hides⟩

/-! ## Sources -/

section
variable {source : String} {b : Block}

theorem ofSource_of_valid (h : read? source = some b) (hb : b.Valid) :
    ofSource source = .ok (b.toDocument .json) :=
  ofSource_eq_ok_iff.mpr ⟨b, h, hb, rfl⟩

/-- A tree that events cannot express is refused with its first fault. -/
theorem ofSource_of_not_valid (h : read? source = some b) (hb : ¬ b.Valid) :
    ∃ f, b.fault? = some f ∧ ofSource source = .error (.inexpressible f) := by
  obtain ⟨f, hf⟩ := Option.ne_none_iff_exists'.mp hb
  refine ⟨f, hf, ?_⟩
  rw [ofSource, h]
  simp only
  rw [hf]

end

end Block

namespace Listener

variable {σ : Type}

/-! ## Reading -/

/-- Nothing is handed over if there is no document. -/
theorem readSource_of_error {source : String} {e : SourceError}
    (h : Block.ofSource source = .error e) (l : Listener σ) (s : σ) :
    l.readSource source s = (.error (.source e), s) := by
  rw [readSource, h]

theorem readSource_of_ok {source : String} {d : Block} (h : Block.ofSource source = .ok d)
    (l : Listener σ) (s : σ) :
    l.readSource source s = ((l.traverse d s).1.mapError .listener, (l.traverse d s).2) := by
  rw [readSource, h]
  simp only
  rcases l.traverse d s with ⟨r, s'⟩
  cases r <;> rfl

/-- The record apart, a listener that keeps one reads a source alike. -/
theorem readSource_recorded (l : Listener σ) (source : String) (s : σ) :
    (l.recorded.readSource source ([], s)).map id Prod.snd = l.readSource source s := by
  cases h : Block.ofSource source with
  | error e => rw [readSource_of_error h, readSource_of_error h]; rfl
  | ok d =>
    rw [readSource_of_ok h, readSource_of_ok h, traverse, traverse, deliverAll_recorded]
    rfl

/-! ## Main result -/

/-- **A source is read into a listener** as the events of its document.

A written tree gives a document if it is valid. The document is valid, names a dialect and is that
of the tree. If the tree is not valid, its first fault is reported, with a position in the tree; a
source that is no written tree is malformed. In both cases the listener is handed nothing.

Of a document the listener is handed all events if it accepts them all, and otherwise the events up
to the first one that it refuses. -/
theorem readSource_document (l : Listener σ) (source : String) (s : σ) :
    (∀ b, Block.read? source = some b →
      (b.Valid ∧ ∃ d, Block.ofSource source = .ok d ∧ d.Valid ∧ b.IsDocumentOf d ∧
        ∃ m cs ps name, d = ⟨.container (.document m), cs, ps⟩ ∧ m.get? "syntax" = some name) ∨
      (¬ b.Valid ∧ ∃ f x, Block.ofSource source = .error (.inexpressible f) ∧
        b.fault? = some f ∧ b.get? f.path = some x ∧ x.tag = f.tag ∧
          (x.HidesChildren ∨ x.HidesParameters))) ∧
    (Block.read? source = none → Block.ofSource source = .error .malformed) ∧
    (l.recorded.readSource source ([], s)).map id Prod.snd = l.readSource source s ∧
    (∀ e, Block.ofSource source = .error e →
      l.recorded.readSource source ([], s) = (.error (.source e), ([], s))) ∧
    ∀ d, Block.ofSource source = .ok d →
      ((l.traverse d s).1 = .ok () ∧
        l.recorded.readSource source ([], s) = (.ok (), (d.events, (l.traverse d s).2))) ∨
      ∃ k err, k < d.events.length ∧ (l.deliverAll (d.events.take k) s).1 = .ok () ∧
        (l.deliverAll (d.events.take (k + 1)) s).1 = .error err ∧
        l.recorded.readSource source ([], s) = (.error (.listener err),
          (d.events.take (k + 1), (l.deliverAll (d.events.take (k + 1)) s).2)) := by
  refine ⟨fun b hb => ?_, Block.ofSource_eq_malformed, readSource_recorded l source s,
    fun e he => readSource_of_error he _ _, fun d hd => ?_⟩
  · by_cases hvalid : b.Valid
    · have hdocument := b.isDocumentOf_toDocument
      exact .inl ⟨hvalid, _, Block.ofSource_of_valid hb hvalid, hvalid.toDocument .json, hdocument,
        hdocument.names⟩
    · obtain ⟨f, hf, hsource⟩ := Block.ofSource_of_not_valid hb hvalid
      obtain ⟨x, hx, htag, hides⟩ := Block.exists_of_fault? hf
      exact .inr ⟨hvalid, f, x, hsource, hf, hx, htag, hides⟩
  · rw [readSource_of_ok hd, traverse, traverse, deliverAll_recorded, List.nil_append]
    cases hrun : (l.deliverAll d.events s).1 with
    | ok u =>
      refine .inl ⟨rfl, ?_⟩
      rw [handed_of_ok hrun]
      rfl
    | error err =>
      obtain ⟨k, hk, haccepted, hhanded, hend⟩ := exists_refused hrun
      rw [hend] at hrun ⊢
      refine .inr ⟨k, err, hk, haccepted, hrun, ?_⟩
      rw [hhanded]
      rfl

end Listener

end DocTree
