import DocTree.Proofs.Chain.Watching
import DocTree.Proofs.Event.OpenBlocks

/-!
# Metadata of the open scopes

A document and a metadata block open a scope of metadata, and such blocks may be nested in each
other and in any other block. The tracker of scopes keeps one stack for both.

**The stack.** At any event of a tree's traversal it holds the metadata of the documents and
metadata blocks that are open there, over the scopes that were open before (`Scopes.ofOpened`). An
event first adds the scope that it enters (`Scopes.before_ofOpened`), and in the end removes the one
that it leaves (`Scopes.after_ofOpened`).

**Lookups** go from the innermost scope outwards, so inner values hide outer ones.

Main result: `Station.traverse_scopes`.
-/

namespace DocTree

/-- The metadata of the document or metadata block that is entered at a position. -/
def scopeAt? (es : List Event) (i : Nat) : Option StringMap :=
  match es[i]? with
  | some (.enter ⟨.document m, _, _⟩) => some m
  | some (.enter ⟨.metadata m, _, _⟩) => some m
  | _ => none

namespace Scopes

/-- What an event that passes makes of the scopes. -/
def pass (s : Scopes) (e : Event) : Scopes := (s.before e).after e

theorem foldl_tracker_pass (s : Scopes) (es : List Event) :
    es.foldl Tracker.pass (.metadataScopes s) = .metadataScopes (es.foldl pass s) :=
  List.foldl_hom Tracker.metadataScopes fun _ _ => rfl

/-- The scopes that some blocks open, over those that were open before. -/
def ofOpened (es : List Event) (prior : Scopes) (opened : List Nat) : Scopes :=
  opened.filterMap (scopeAt? es) ++ prior

section

variable {es : List Event} {prior : Scopes} {opened : List Nat} {e : Event} {o : Opening} {i : Nat}

theorem scopeAt?_enter (he : es[i]? = some (.enter o)) : scopeAt? es i = ofContainer? o.kind := by
  obtain ⟨kind, parameters, carried⟩ := o
  unfold scopeAt?
  rw [he]
  cases kind <;> rfl

/-- A block that is entered opens its scope, if it has one, within all others. -/
theorem ofOpened_cons (he : es[i]? = some (.enter o)) :
    ofOpened es prior (i :: opened) =
      match ofContainer? o.kind with
      | some m => m :: ofOpened es prior opened
      | none => ofOpened es prior opened := by
  rw [ofOpened, List.filterMap_cons, scopeAt?_enter he]
  cases ofContainer? o.kind <;> rfl

/-- An event adds the scope that it enters. -/
theorem before_ofOpened (he : es[i]? = some e) :
    (ofOpened es prior (openBefore es i)).before e = ofOpened es prior (openAt es i) := by
  cases e with
  | leaf a =>
    rw [openAt_leaf he]
    rfl
  | exit o =>
    rw [openAt_exit he]
    rfl
  | enter o =>
    rw [openAt_enter he, ofOpened_cons he]
    rfl

/-- An event removes the scope that it leaves. -/
theorem after_ofOpened (hes : WellNested es) (he : es[i]? = some e) :
    (ofOpened es prior (openAt es i)).after e = ofOpened es prior (openBefore es (i + 1)) := by
  cases e with
  | leaf a =>
    rw [openAt_leaf he, openBefore_leaf he]
    rfl
  | enter o =>
    rw [openAt_enter he, openBefore_enter he]
    rfl
  | exit o =>
    obtain ⟨j, outer, hopen, hj⟩ := hes.openBefore_eq_cons he
    rw [openAt_exit he, openBefore_exit he, hopen, List.tail_cons, ofOpened_cons hj, after]
    cases ofContainer? o.kind <;> rfl

end

/-- The scopes before the event at a position are those of the blocks that are open there. -/
theorem foldl_pass_eq {es : List Event} (hes : WellNested es) (prior : Scopes) {i : Nat}
    (hi : i ≤ es.length) :
    (es.take i).foldl pass prior = ofOpened es prior (openBefore es i) := by
  apply foldl_take_induction (P := fun i s => s = ofOpened es prior (openBefore es i)) rfl ?_ hi
  intro i e s he hs
  rw [hs, pass, before_ofOpened he, after_ofOpened hes he]

/-! ## Lookups -/

theorem value?_eq_head? (s : Scopes) (key : String) : s.value? key = (s.values key).head? := by
  induction s with
  | nil => rfl
  | cons m s ih =>
    rw [value?, values, List.findSome?_cons, List.filterMap_cons]
    cases m.get? key with
    | none => exact ih
    | some value => rfl

/-- The answers at an event, when some scopes were open before the traversal. -/
structure Answered (prior : Scopes) (es : List Event) (i : Nat) (s : Scopes) : Prop where
  /-- The scopes, innermost first. -/
  scopes : s = (openAt es i).filterMap (scopeAt? es) ++ prior
  /-- All values of a key, those of inner scopes first. -/
  values : ∀ key, s.values key =
    ((openAt es i).filterMap (scopeAt? es) ++ prior).filterMap (·.get? key)
  /-- The innermost value hides the others. -/
  value : ∀ key, s.value? key = (s.values key).head?

theorem answered_ofOpened (prior : Scopes) (es : List Event) (i : Nat) :
    Answered prior es i (ofOpened es prior (openAt es i)) :=
  ⟨rfl, fun _ => rfl, fun key => value?_eq_head? _ key⟩

end Scopes

/-! ## Traversals -/

namespace Station

variable {σ : Type}

/-- **The scopes are those of the open blocks.** Whatever scopes were open before the traversal of a
tree, a stage behind the tracker finds the answers `Scopes.Answered` at each event that comes to it.
If no listener refuses an event, all come to it, and in the end the scopes are those from before. -/
theorem traverse_scopes {front rest : List (Station σ)} {s : Scopes}
    {c : Chain (Watcher σ) (Watched σ)}
    (hc : ((front ++ tracker (.metadataScopes s) :: rest).map stage).foldlM Chain.add {} = .ok c)
    (b : Block) (w : σ) :
    ∃ d, c.traverse ([], w) b = some d ∧
      (d.outcome, d.world.2) =
        (Listener.fanOut (listeners (front ++ tracker (.metadataScopes s) :: rest))).traverse b w ∧
      (∀ k, watcher k ∈ rest → ∀ i x, (d.world.1.filter (·.stage = k))[i]? = some x →
        b.events[i]? = some x.event ∧
          ∃ v, x.tracker? .metadataScopes = some (.metadataScopes v) ∧
            Scopes.Answered s b.events i v) ∧
      (d.outcome = .ok () →
        (∀ k, watcher k ∈ rest → (d.world.1.filter (·.stage = k)).map (·.event) = b.events) ∧
          d.chain.tracker? .metadataScopes = some (.metadataScopes s)) := by
  have hes : WellNested b.events := balanced_iff.mp (balanced_events b)
  obtain ⟨d, hd, hfanOut, hseen, hend⟩ := traverse_sightings hc b w
  refine ⟨d, hd, hfanOut, ?_, ?_⟩
  · intro k hk i x hx
    obtain ⟨he, htracker⟩ := hseen k hk i x hx
    have hi : i < b.events.length := (List.getElem?_eq_some_iff.mp he).1
    rw [Scopes.foldl_tracker_pass, Scopes.foldl_pass_eq hes s hi.le, Tracker.before,
      Scopes.before_ofOpened he] at htracker
    exact ⟨he, _, htracker, Scopes.answered_ofOpened s b.events i⟩
  · intro hok
    have hlast := Scopes.foldl_pass_eq hes s (Nat.le_refl b.events.length)
    have htracker := (hend hok).2
    rw [hes.openBefore_length, List.take_length] at hlast
    rw [Scopes.foldl_tracker_pass, hlast] at htracker
    exact ⟨(hend hok).1, htracker⟩

/-! ### A metadata block within a document -/

def ofPage (source : String) : StringMap := (∅ : StringMap).insert "source" source

/-- A document with a word and, in a group, a metadata block around another word. -/
def scopesInScopes : Block :=
  .document (ofPage "Main") [.word "a",
    .group [.ofContainer (.metadata (ofPage "Included")) [.word "b"], .word "c"]]

def watchedScopes : List (Station Unit) :=
  [tracker (.newLineRun 0)] ++ tracker (.metadataScopes [ofPage "Wiki"]) :: [watcher .printer]

theorem chain_watchedScopes :
    (watchedScopes.map stage).foldlM Chain.add {} = .ok (chain watchedScopes) :=
  build_eq_ok_iff.mpr ⟨by decide, rfl⟩

/-- At the word within, the metadata block comes first; at the word after it, it is gone. -/
theorem traverse_scopesInScopes :
    ∃ (c : Chain (Watcher Unit) (Watched Unit)) (d : Chain.Delivered _ _),
      (watchedScopes.map stage).foldlM Chain.add {} = .ok c ∧
        c.traverse ([], ()) scopesInScopes = some d ∧ d.outcome = .ok () ∧
        (∃ x v, (d.world.1.filter (·.stage = .printer))[4]? = some x ∧
          x.tracker? .metadataScopes = some (.metadataScopes v) ∧
          v.values "source" = ["Included", "Main", "Wiki"] ∧
          v.value? "source" = some "Included") ∧
        (∃ x v, (d.world.1.filter (·.stage = .printer))[6]? = some x ∧
          x.tracker? .metadataScopes = some (.metadataScopes v) ∧
          v.values "source" = ["Main", "Wiki"] ∧ v.value? "source" = some "Main") ∧
        d.chain.tracker? .metadataScopes = some (.metadataScopes [ofPage "Wiki"]) := by
  obtain ⟨d, hd, hfanOut, hseen, hend⟩ := traverse_scopes chain_watchedScopes scopesInScopes ()
  have hwatch : watcher .printer ∈ [(watcher .printer : Station Unit)] := List.mem_singleton_self _
  have hok : d.outcome = .ok () := congrArg Prod.fst hfanOut
  obtain ⟨hevents, hafter⟩ := hend hok
  have hanswered : ∀ i e, scopesInScopes.events[i]? = some e →
      ∃ x v, (d.world.1.filter (·.stage = .printer))[i]? = some x ∧
        x.tracker? .metadataScopes = some (.metadataScopes v) ∧
        Scopes.Answered [ofPage "Wiki"] scopesInScopes.events i v := by
    intro i e he
    obtain ⟨x, hx, -⟩ := exists_sighting (hevents .printer hwatch) he
    obtain ⟨-, v, hv, ha⟩ := hseen .printer hwatch i x hx
    exact ⟨x, v, hx, hv, ha⟩
  obtain ⟨x, v₁, hx, hv₁, ha₁⟩ := hanswered 4 _ rfl
  obtain ⟨y, v₂, hy, hv₂, ha₂⟩ := hanswered 6 _ rfl
  have hinner : v₁.values "source" = ["Included", "Main", "Wiki"] := ha₁.values "source"
  have houter : v₂.values "source" = ["Main", "Wiki"] := ha₂.values "source"
  refine ⟨_, d, chain_watchedScopes, hd, hok, ⟨x, v₁, hx, hv₁, hinner, ?_⟩,
    ⟨y, v₂, hy, hv₂, houter, ?_⟩, hafter⟩
  · rw [ha₁.value, hinner]
    rfl
  · rw [ha₂.value, houter]
    rfl

end Station

end DocTree
