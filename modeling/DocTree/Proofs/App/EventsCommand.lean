import DocTree.Arguments
import DocTree.Proofs.Block.Source
import DocTree.Proofs.Macro.Completeness
import DocTree.Proofs.Transform.Icons
import DocTree.Proofs.Transform.Pipeline

/-!
# The events of a transformed tree

What the transform option of the events command comes to.

**Passes by name.** The standard catalog knows two names. The names before the first one it does not
know do not matter for the error that is reported (`PassCatalog.passes_of_unknown`).

**Passes that run.** Macros are expanded with an empty table, so that no call is ever to be expanded
and the tree stays as it is. To put icons into a tree a second time changes nothing. Both passes are
safe on trees that are not trusted. What is left of a run is whether icons are enabled at all, and
order, repetitions, the number of steps and the restriction play no part.

**Files** (`FileAccess.Holds`). The file system is any whose operations are steps over a state. It
is only asked to give the input and the settings, and to stay as it is meanwhile.

## Main result

* `App.run_renderEvents_transformed`: the events with the option in terms of those without, and the
  failure for the first name that no pass has.
-/

namespace DocTree

/-! ## Macros of an empty table -/

namespace MacroTable

theorem settled_empty (ctx : Context) (tree : Block) : tree.Settled ∅ ctx := by
  rintro p b hb call hcall ⟨m, hm, -⟩
  exact nomatch (KeyMap.get?_empty call.name).symm.trans hm

/-- Without macros, every tree stays as it is. -/
theorem run_pass_empty (maxSteps : Nat) (ctx : Context) (tree : Block) :
    ((∅ : MacroTable).pass maxSteps).run ctx tree = { tree } := by
  show (expand ∅ maxSteps ctx tree).toTransformed = _
  rw [expand, Expansion.ofTree_of_settled (settled_empty ctx tree),
    Expansion.run_of_pending_eq_nil rfl]

end MacroTable

/-! ## Passes by name -/

namespace PassCatalog

variable {c : PassCatalog} {s : TransformSettings} {names before after : List String}
  {name : String}

theorem get?_standard (macros : MacroTable) (name : String) :
    (standard macros).get? name =
      if name = "icon" then some fun s => (IconTable.withExtra s.icons).pass
      else if name = "macro" then some fun s => macros.pass s.maxSteps
      else none := by
  simp [standard, KeyMap.ofList]

theorem isSome_get?_standard_iff {macros : MacroTable} :
    ((standard macros).get? name).isSome = true ↔ name = "macro" ∨ name = "icon" := by
  rw [get?_standard]
  by_cases hicon : name = "icon"
  · simp [hicon]
  · by_cases hmacro : name = "macro" <;> simp [hicon, hmacro]

theorem passes_of_known (h : ∀ name ∈ names, (c.get? name).isSome = true) :
    c.passes s names = .ok (names.filterMap fun name => (c.get? name).map (· s)) := by
  induction names with
  | nil => rfl
  | cons name names ih =>
    obtain ⟨hname, hnames⟩ := List.forall_mem_cons.mp h
    obtain ⟨make, hmake⟩ := Option.isSome_iff_exists.mp hname
    rw [passes, hmake, ih hnames, List.filterMap_cons, hmake]
    rfl

/-- The passes of known names: icons if their name is among them, and macros likewise. -/
theorem exists_passes_standard (macros : MacroTable)
    (h : ∀ name ∈ names, name = "macro" ∨ name = "icon") :
    ∃ ps, (standard macros).passes s names = .ok ps ∧
      ∀ p, p ∈ ps ↔ "icon" ∈ names ∧ p = (IconTable.withExtra s.icons).pass ∨
        "macro" ∈ names ∧ p = macros.pass s.maxSteps := by
  refine ⟨_, passes_of_known fun name hname => isSome_get?_standard_iff.mpr (h name hname),
    fun p => ?_⟩
  rw [List.mem_filterMap]
  constructor
  · rintro ⟨name, hname, hp⟩
    rw [get?_standard] at hp
    rcases h name hname with rfl | rfl
    · exact .inr ⟨hname, (Option.some.inj hp).symm⟩
    · exact .inl ⟨hname, (Option.some.inj hp).symm⟩
  · rintro (⟨hname, rfl⟩ | ⟨hname, rfl⟩)
    · exact ⟨"icon", hname, by rw [get?_standard]; rfl⟩
    · exact ⟨"macro", hname, by rw [get?_standard]; rfl⟩

/-- The first unknown name is the one that is reported. -/
theorem passes_of_unknown (hbefore : ∀ name ∈ before, (c.get? name).isSome = true)
    (hname : c.get? name = none) :
    c.passes s (before ++ name :: after) = .error ⟨name⟩ := by
  induction before with
  | nil => rw [List.nil_append, passes, hname]
  | cons first before ih =>
    obtain ⟨hfirst, hbefore⟩ := List.forall_mem_cons.mp hbefore
    obtain ⟨make, hmake⟩ := Option.isSome_iff_exists.mp hfirst
    rw [List.cons_append, passes, hmake, ih hbefore]

end PassCatalog

/-! ## Files -/

namespace FileAccess

variable {σ : Type}

/-- A file of that name is there, and it is read as the text. Nothing else comes of asking. -/
structure Holds (fs : FileAccess (StateM σ)) (st : σ) (name text : String) : Prop where
  present : (fs.isPresent name).run st = (true, st)
  reads : (fs.read? name).run st = (some text, st)

/-- What follows a step goes on with its answer. -/
theorem run_bind_of_run_eq {α β : Type} {x : StateM σ α} {f : α → StateM σ β} {st st' : σ} {a : α}
    (h : x.run st = (a, st')) : (x >>= f).run st = (f a).run st' := by
  rw [StateT.run_bind, h]
  rfl

end FileAccess

open FileAccess (run_bind_of_run_eq)

namespace App

variable {σ : Type} {fs : FileAccess (StateM σ)} {st : σ} {input source : String}
  {config : Option String} {s : TransformSettings} {tree : Block}

theorem run_load {path text : String} {s : Settings} (hfile : fs.Holds st path text)
    (hread : Settings.read? text = some s) : (Settings.load fs path).run st = (.ok s, st) := by
  rw [Settings.load, run_bind_of_run_eq hfile.present, if_pos rfl, run_bind_of_run_eq hfile.reads]
  dsimp only
  rw [hread]
  rfl

/-- Settings are those of the file that is given, or else of the one in the directory. -/
theorem run_settings {dir text : String} {s : Settings}
    (hfile : fs.Holds st (config.getD (FilePath.join dir Settings.fileName)) text)
    (hread : Settings.read? text = some s) : (settings fs config dir).run st = (.ok s, st) := by
  cases config with
  | none =>
    rw [Option.getD_none] at hfile
    rw [settings, Settings.loadFrom, run_bind_of_run_eq (run_load hfile hread)]
    rfl
  | some path =>
    rw [Option.getD_some] at hfile
    rw [settings, run_bind_of_run_eq hfile.present, if_pos rfl,
      run_bind_of_run_eq (run_load hfile hread)]
    rfl

/-! ## Trees -/

/-- The passes of known names put icons into the tree once, if at all. -/
theorem transformed_of_known (hknown : ∀ name ∈ s.enabled, name = "macro" ∨ name = "icon") :
    transformed input s tree =
      .ok (if "icon" ∈ s.enabled then tree.withIcons (.withExtra s.icons) else tree) := by
  obtain ⟨ps, hps, hmem⟩ := PassCatalog.exists_passes_standard (s := s) ∅ hknown
  have hrun : (Pipeline.ofList ps).run (context input s tree) tree =
      { tree := if "icon" ∈ s.enabled then tree.withIcons (.withExtra s.icons) else tree } := by
    by_cases hicon : "icon" ∈ s.enabled
    · rw [if_pos hicon]
      refine Pipeline.runAll_of_idempotent
        (IconTable.withIcons_withIcons (IconTable.textual_withExtra s.icons)) (fun p hp => ?_)
        ⟨_, Pipeline.mem_passes_ofList.mpr ((hmem _).mpr (.inl ⟨hicon, rfl⟩)), fun b => rfl⟩
      rcases (hmem p).mp (Pipeline.mem_passes_ofList.mp hp) with ⟨-, rfl⟩ | ⟨-, rfl⟩
      · exact ⟨Bool.or_true _, .inl fun b => rfl⟩
      · exact ⟨Bool.or_true _, .inr fun b => MacroTable.run_pass_empty s.maxSteps _ b⟩
    · rw [if_neg hicon]
      refine Pipeline.runAll_of_unchanged fun p hp => ?_
      rcases (hmem p).mp (Pipeline.mem_passes_ofList.mp hp) with ⟨hicon', -⟩ | ⟨-, rfl⟩
      · exact absurd hicon' hicon
      · exact ⟨Bool.or_true _, MacroTable.run_pass_empty s.maxSteps _ tree⟩
  rw [transformed, PassCatalog.pipeline, hps]
  simp only [Except.map, hrun]

theorem transformed_of_unknown {before after : List String} {name : String}
    (hsplit : s.enabled = before ++ name :: after)
    (hbefore : ∀ name ∈ before, name = "macro" ∨ name = "icon")
    (hname : ¬ (name = "macro" ∨ name = "icon")) :
    transformed input s tree = .error (.passUnknown ⟨name⟩) := by
  rw [transformed, PassCatalog.pipeline, hsplit, PassCatalog.passes_of_unknown]
  · rfl
  · exact fun name hmem => PassCatalog.isSome_get?_standard_iff.mpr (hbefore name hmem)
  · exact Option.not_isSome_iff_eq_none.mp (mt PassCatalog.isSome_get?_standard_iff.mp hname)

/-! ## Events -/

/-- Without the option. -/
theorem run_renderEvents_plain (hinput : fs.Holds st input source) :
    (renderEvents fs input false config).run st =
      (match Block.ofSource source with
       | .error e => .error (.inputMalformed input e)
       | .ok tree => .ok tree.eventText, st) := by
  rw [renderEvents, run_bind_of_run_eq hinput.present, if_pos rfl,
    run_bind_of_run_eq hinput.reads]
  dsimp only
  cases Block.ofSource source <;> rfl

/-- With the option. -/
theorem run_renderEvents_option {s : Settings} (hinput : fs.Holds st input source)
    (hsettings : (settings fs config (FilePath.directory input)).run st = (.ok s, st)) :
    (renderEvents fs input true config).run st =
      (match Block.ofSource source with
       | .error e => .error (.inputMalformed input e)
       | .ok tree => (transformed input s.transforms tree).map Block.eventText, st) := by
  rw [renderEvents, run_bind_of_run_eq hinput.present, if_pos rfl,
    run_bind_of_run_eq hinput.reads]
  dsimp only
  cases Block.ofSource source with
  | error e => rfl
  | ok tree =>
    dsimp only
    rw [if_pos rfl, run_bind_of_run_eq hsettings]
    rfl

/-- A failure is what the command ends with, and nothing is written. -/
theorem run_events_of_failed {transform : Bool} {e : AppError}
    (h : (renderEvents fs input transform config).run st = (.error e, st))
    (output : Option String) :
    (Command.run fs (.events input transform config output)).run st = (.error e, st) := by
  cases output with
  | none =>
    rw [Command.run, run_bind_of_run_eq h]
    rfl
  | some output =>
    have hwrite : (writeEvents fs input transform config output).run st = (.error e, st) := by
      rw [writeEvents, run_bind_of_run_eq h]
      rfl
    rw [Command.run, run_bind_of_run_eq hwrite]
    rfl

/-! ## Main result -/

/-- **The option puts icons into the tree once, if they are enabled, and does nothing else.** While
all enabled names are known, there are events with it exactly if there are events without it, and
they are those of the tree with icons, or the same ones. The first name that is not known is an
error, and then the command leaves the files as they are. -/
theorem run_renderEvents_transformed (fs : FileAccess (StateM σ)) (st : σ) (input source : String)
    (config : Option String) (s : Settings) (hinput : fs.Holds st input source)
    (hsettings : (settings fs config (FilePath.directory input)).run st = (.ok s, st)) :
    let plain := (renderEvents fs input false config).run st
    let changed := (renderEvents fs input true config).run st
    ((∀ name ∈ s.transforms.enabled, name = "macro" ∨ name = "icon") →
      (changed.1.isOk = true ↔ plain.1.isOk = true) ∧
        ∀ tree, Block.ofSource source = .ok tree →
          plain = (.ok tree.eventText, st) ∧
          changed = (.ok (if "icon" ∈ s.transforms.enabled
            then (tree.withIcons (.withExtra s.transforms.icons)).eventText
            else tree.eventText), st)) ∧
      ∀ tree before name after, Block.ofSource source = .ok tree →
        s.transforms.enabled = before ++ name :: after →
        (∀ n ∈ before, n = "macro" ∨ n = "icon") → ¬ (name = "macro" ∨ name = "icon") →
          changed = (.error (.passUnknown ⟨name⟩), st) ∧
          ∀ output, (Command.run fs (.events input true config output)).run st =
            (.error (.passUnknown ⟨name⟩), st) := by
  intro plain changed
  have hplain : plain = _ := run_renderEvents_plain hinput
  have hchanged : changed = _ := run_renderEvents_option hinput hsettings
  refine ⟨fun hknown => ?_, fun tree before name after htree hsplit hbefore hname => ?_⟩
  · have htransformed (tree : Block) : transformed input s.transforms tree = _ :=
      transformed_of_known hknown
    simp only [hplain, hchanged, htransformed]
    cases Block.ofSource source with
    | error e => exact ⟨Iff.rfl, nofun⟩
    | ok tree =>
      refine ⟨Iff.rfl, fun tree' htree => ?_⟩
      obtain rfl := Except.ok.inj htree
      refine ⟨rfl, ?_⟩
      by_cases hicon : "icon" ∈ s.transforms.enabled <;> simp [hicon, Except.map]
  · have hfailed : changed = (.error (.passUnknown ⟨name⟩), st) := by
      simp only [hchanged, htree, transformed_of_unknown hsplit hbefore hname]
      rfl
    exact ⟨hfailed, fun output => run_events_of_failed hfailed output⟩

/-! ### Two files of settings -/

/-- Texts by the names of their files. No name is taken apart. -/
abbrev NamedTexts := List (String × String)

def NamedTexts.access : FileAccess (StateM NamedTexts) where
  isPresent name := do return ((← get).lookup name).isSome
  read? name := do return (← get).lookup name
  write name text := do
    modify ((name, text) :: ·)
    return true

theorem NamedTexts.holds {files : NamedTexts} {name text : String}
    (h : files.lookup name = some text) : access.Holds files name text := by
  constructor
  · show ((files.lookup name).isSome, files) = _
    rw [h, Option.isSome_some]
  · show (files.lookup name, files) = _
    rw [h]

/-- A word with a text for an icon behind it. -/
def smiling : Block :=
  .paragraph [.word "x", .specialSymbol ':', .specialSymbol ')']

/-- The tree as an input, and settings with known and with unknown names. -/
def smilingFiles : NamedTexts :=
  [("doc.json", smiling.jsonText),
    ("icons.toml",
      "[transformations]\nenabled = [\"icon\", \"macro\", \"icon\"]\nrestricted = true\n"),
    ("other.toml", "[transformations]\nenabled = [\"macro\", \"blink\", \"shine\"]\n")]

theorem ofSource_smiling : Block.ofSource smiling.jsonText = .ok (smiling.toDocument .json) :=
  Block.ofSource_text (Block.exact_toJson smiling) (by decide) rfl (by decide)

/-- Icons are put in once, and an image is left of the text. In other settings, the first of two
unknown names is reported, and no file is written. -/
theorem run_renderEvents_smiling :
    let fs := NamedTexts.access
    fs.Holds smilingFiles "doc.json" smiling.jsonText ∧
      (renderEvents fs "doc.json" true (some "icons.toml")).run smilingFiles =
        (.ok ("beginDocument [[syntax]=[json/1.0]]\nbeginParagraph\nonWord [x]\n"
          ++ "onImage [Typed = [true] Type = [icon] Reference = [emoticon_smile]] [true]\n"
          ++ "endParagraph\nendDocument [[syntax]=[json/1.0]]"), smilingFiles) ∧
      (Command.run fs (.events "doc.json" true (some "other.toml") (some "out"))).run
          smilingFiles = (.error (.passUnknown ⟨"blink"⟩), smilingFiles) := by
  intro fs
  have hinput : fs.Holds smilingFiles "doc.json" smiling.jsonText := NamedTexts.holds rfl
  let known : TransformSettings := { enabled := ["icon", "macro", "icon"], restricted := true }
  let unknown : TransformSettings := { enabled := ["macro", "blink", "shine"] }
  have hknown : (settings fs (some "icons.toml") (FilePath.directory "doc.json")).run
      smilingFiles = (.ok { transforms := known }, smilingFiles) :=
    run_settings (NamedTexts.holds rfl) (by decide +kernel)
  have hunknown : (settings fs (some "other.toml") (FilePath.directory "doc.json")).run
      smilingFiles = (.ok { transforms := unknown }, smilingFiles) :=
    run_settings (NamedTexts.holds rfl) (by decide +kernel)
  refine ⟨hinput, ?_, ?_⟩
  · obtain ⟨-, h⟩ := (run_renderEvents_transformed fs smilingFiles "doc.json" _ _ _ hinput
      hknown).1 (by decide)
    rw [(h _ ofSource_smiling).2]
    exact congrArg (·, smilingFiles) (congrArg Except.ok (by decide +kernel))
  · exact ((run_renderEvents_transformed fs smilingFiles "doc.json" _ _ _ hinput hunknown).2 _
      ["macro"] "blink" ["shine"] ofSource_smiling rfl (by decide) (by decide)).2 (some "out")

end App

end DocTree
