import HostGlue.Proofs.Cli.Footprint
import HostGlue.Proofs.Document.Generation
import HostGlue.Proofs.Files.Reading
import HostGlue.Proofs.Interface.Accepted

/-!
# Failures

A run that fails either reports the failure and ends with a status or is stopped by it. Which of the
two it is depends on where the failure comes from. Everything that is wrong with the fragments is
reported, unless their directory cannot be tested or a name cannot be asked for; and so is
everything that is wrong with the manifest as a manifest, its absence included. Generation cannot
fail behind that. But a root that cannot be found, a manifest that cannot be read for another
reason, a document that a check cannot read and a document that cannot be written stop the run.

`failures_reported_iff` draws the line exactly, for every tree and for every fault that a call may
meet, and `directory_stops` are runs on the wrong side of it. Two things are taken for granted: the
installation has its own manifest, and a link on the way to the root can be read. A run is followed
through its parts, so each reason comes with the journal that the part before it left.
-/

namespace HostGlue.Cli

open Files Interface

/-! ## The root -/

section Root

variable {home : Path} {o : Options} {j : Journal} {e : FileError}

/-- The ways in which the root cannot be found. -/
inductive RootFails (home : Path) (o : Options) (j : Journal) : FileError → Prop
  | installed {e : FileError} (unnamed : o.root = "") (fails : ProbeFails j (home.child "wasm") e) :
      RootFails home o j e
  | start {e : FileError} {j₁ : Journal} (unnamed : o.root = "")
      (absent : (Action.isDirectory (home.child "wasm")).run j = (.ok false, j₁))
      (fails : StartFails j₁ e) : RootFails home o j e
  | named {e : FileError} (root : o.root ≠ "") (fails : ResolveFails j (Path.ofString o.root) e) :
      RootFails home o j e

theorem chooseRoot_eq_error_iff :
    ((chooseRoot o home).run j).1 = .error e ↔ RootFails home o j e := by
  unfold chooseRoot
  split
  · next unnamed =>
      rw [Action.run_fst_iff]
      simp only [defaultRoot, Action.run_bind_eq_error_iff]
      constructor
      · rintro ⟨j', failed | ⟨there, j₁, probed, rest⟩⟩
        · exact .installed unnamed
            (Action.isDirectory_eq_error_iff.mp (Action.run_fst_iff.mpr ⟨_, failed⟩))
        · cases there with
          | true => cases rest
          | false =>
              rw [if_neg Bool.false_ne_true, Action.run_bind_eq_error_iff] at rest
              rcases rest with failed | ⟨_, _, -, ⟨⟩⟩
              exact .start unnamed probed
                (Action.workingDirectory_eq_error_iff.mp (Action.run_fst_iff.mpr ⟨_, failed⟩))
      · intro fails
        cases fails with
        | installed _ fails =>
            obtain ⟨j', failed⟩ :=
              Action.run_fst_iff.mp (Action.isDirectory_eq_error_iff.mpr fails)
            exact ⟨j', .inl failed⟩
        | start _ absent fails =>
            obtain ⟨j', failed⟩ :=
              Action.run_fst_iff.mp (Action.workingDirectory_eq_error_iff.mpr fails)
            refine ⟨j', .inr ⟨_, _, absent, ?_⟩⟩
            rw [if_neg Bool.false_ne_true]
            exact Action.run_bind_eq_error_iff.mpr (.inl failed)
        | named root => exact absurd unnamed root
  · next root =>
      rw [Action.resolve_eq_error_iff]
      constructor
      · exact .named root
      · intro fails
        cases fails with
        | installed unnamed => exact absurd unnamed root
        | start unnamed => exact absurd unnamed root
        | named _ fails => exact fails

/-- The places are known as soon as the root is. -/
theorem ofOptions_eq_error_iff :
    ((Places.ofOptions o home).run j).1 = .error e ↔ RootFails home o j e := by
  rw [← chooseRoot_eq_error_iff, Action.run_fst_iff, Action.run_fst_iff]
  refine exists_congr fun j' => ?_
  rw [Places.ofOptions, Action.run_bind_eq_error_iff, or_iff_left]
  rintro ⟨_, _, -, ⟨⟩⟩

end Root

/-! ## Sources -/

section Sources

variable {o : Options} {places : Places} {m : Manifest} {j j' : Journal} {p : Path}
  {cause : Failure} {ε α : Type}

theorem fetch_eq_ok_iff {fault : ε → Failure} {action : Action (Except ε α)} {x : α} :
    (fetch fault action).run j = (.ok x, j') ↔ action.run j = (.ok (.ok x), j') := by
  rw [fetch, Action.run_bind, Action.run_adapt]
  cases action.run j with
  | mk r j₁ =>
      rcases r with e | e | y
      · exact iff_of_false (by rintro ⟨⟩) (by rintro ⟨⟩)
      · exact iff_of_false (by rintro ⟨⟩) (by rintro ⟨⟩)
      · constructor
        · rintro ⟨⟩
          rfl
        · rintro ⟨⟩
          rfl

/-- Fetching fails as the action does, or with the fault that the action found. -/
theorem fetch_eq_error_iff {fault : ε → Failure} {action : Action (Except ε α)} :
    ((fetch fault action).run j).1 = .error cause ↔
      (∃ e, (action.run j).1 = .error e ∧ cause = .file e) ∨
        ∃ e, (action.run j).1 = .ok (.error e) ∧ cause = fault e := by
  rw [fetch, Action.run_bind, Action.run_adapt]
  cases action.run j with
  | mk r j₁ =>
      rcases r with e | e | y
      · constructor
        · rintro ⟨⟩
          exact .inl ⟨e, rfl, rfl⟩
        · rintro (⟨e, ⟨⟩, rfl⟩ | ⟨e, ⟨⟩, -⟩)
          rfl
      · constructor
        · rintro ⟨⟩
          exact .inr ⟨e, rfl, rfl⟩
        · rintro (⟨e, ⟨⟩, -⟩ | ⟨e, ⟨⟩, rfl⟩)
          rfl
      · refine iff_of_false (by rintro ⟨⟩) ?_
        rintro (⟨e, ⟨⟩, -⟩ | ⟨e, ⟨⟩, -⟩)

/-- The opcodes of every manifest that is chosen keep the pairing rule. -/
theorem paired_of_chooseManifest (h : (chooseManifest places.manifest).run j = (.ok m, j')) :
    ∀ e ∈ m.opcodes, checkPairing e.2.inputs = .ok () := by
  cases named : places.manifest with
  | none =>
      rw [named] at h
      cases h
      decide
  | some p =>
      rw [named, chooseManifest, fetch_eq_ok_iff, loadManifest, Action.tryCatch_eq_ok_iff] at h
      rcases h with loaded | ⟨e, j₁, -, handled⟩
      · obtain ⟨text, j₁, -, same⟩ := Action.run_bind_eq_ok_iff.mp loaded
        have read : Manifest.ofText p.text p.name text = .ok m :=
          Except.ok.inj (Prod.mk.inj same).1
        simp only [Manifest.ofText, except_bind_eq_ok, except_mapError_eq_ok] at read
        obtain ⟨data, -, read⟩ := read
        exact fun e mem => (manifest_accepted read mem).pairing
      · split at handled
        · split at handled <;> cases handled
        · cases handled

/-- The ways in which the sources give no documents. -/
inductive SourceFails (places : Places) (j : Journal) : Failure → Prop
  | manifest {p : Path} {e : FileError} (named : places.manifest = some p)
      (failed : ((loadManifest p).run j).1 = .error e) : SourceFails places j (.file e)
  | refusedManifest {p : Path} {cause : ManifestError} (named : places.manifest = some p)
      (failed : ((loadManifest p).run j).1 = .ok (.error cause)) :
      SourceFails places j (.manifest cause)
  | fragments {m : Manifest} {e : FileError} {j₁ : Journal}
      (chosen : (chooseManifest places.manifest).run j = (.ok m, j₁))
      (failed : ((loadFragments places.fragments).run j₁).1 = .error e) :
      SourceFails places j (.file e)
  | refusedFragments {m : Manifest} {cause : FragmentError} {j₁ : Journal}
      (chosen : (chooseManifest places.manifest).run j = (.ok m, j₁))
      (failed : ((loadFragments places.fragments).run j₁).1 = .ok (.error cause)) :
      SourceFails places j (.fragments cause)

/-- What was read keeps the pairing rule, so there is nothing left that could fail. -/
theorem exists_generate (o : Options)
    (chosen : (chooseManifest places.manifest).run j = (.ok m, j'))
    (fragments : Fragments) : ∃ prepared, generate o m fragments = .ok prepared := by
  have wide : ({} : Machine.Context).wordBytes ≠ 0 := by decide
  obtain ⟨docs, generated, -⟩ := exists_documents wide (paired_of_chooseManifest chosen) fragments
    (some (Text.ofString o.hostModule))
  rw [generate, generated]
  exact ⟨_, rfl⟩

/-- **Only the sources fail before the documents are checked or written.** -/
theorem prepare_eq_error_iff :
    ((prepare o places).run j).1 = .error cause ↔ SourceFails places j cause := by
  rw [Action.run_fst_iff]
  simp only [prepare, Action.run_bind_eq_error_iff]
  constructor
  · rintro ⟨j', failed | ⟨m, j₁, chosen, failed | ⟨fragments, j₂, -, impossible⟩⟩⟩
    · cases named : places.manifest with
      | none =>
          rw [named] at failed
          cases failed
      | some p =>
          rw [named, chooseManifest] at failed
          rcases fetch_eq_error_iff.mp (Action.run_fst_iff.mpr ⟨_, failed⟩) with
            ⟨e, found, rfl⟩ | ⟨e, found, rfl⟩
          · exact .manifest named found
          · exact .refusedManifest named found
    · rcases fetch_eq_error_iff.mp (Action.run_fst_iff.mpr ⟨_, failed⟩) with
        ⟨e, found, rfl⟩ | ⟨e, found, rfl⟩
      · exact .fragments chosen found
      · exact .refusedFragments chosen found
    · obtain ⟨prepared, generated⟩ := exists_generate o chosen fragments
      rw [generated] at impossible
      cases impossible
  · have atManifest {p : Path} (named : places.manifest = some p)
        (failed : ((fetch .manifest (loadManifest p)).run j).1 = .error cause) :
        ∃ j', (chooseManifest places.manifest).run j = (.error cause, j') := by
      rw [named]
      exact Action.run_fst_iff.mp failed
    have atFragments {j₁ : Journal}
        (failed : ((fetch .fragments (loadFragments places.fragments)).run j₁).1 = .error cause) :=
      Action.run_fst_iff.mp failed
    intro fails
    cases fails with
    | manifest named failed =>
        obtain ⟨j', failed⟩ := atManifest named (fetch_eq_error_iff.mpr (.inl ⟨_, failed, rfl⟩))
        exact ⟨j', .inl failed⟩
    | refusedManifest named failed =>
        obtain ⟨j', failed⟩ := atManifest named (fetch_eq_error_iff.mpr (.inr ⟨_, failed, rfl⟩))
        exact ⟨j', .inl failed⟩
    | fragments chosen failed =>
        obtain ⟨j', failed⟩ := atFragments (fetch_eq_error_iff.mpr (.inl ⟨_, failed, rfl⟩))
        exact ⟨j', .inr ⟨_, _, chosen, .inl failed⟩⟩
    | refusedFragments chosen failed =>
        obtain ⟨j', failed⟩ := atFragments (fetch_eq_error_iff.mpr (.inr ⟨_, failed, rfl⟩))
        exact ⟨j', .inr ⟨_, _, chosen, .inl failed⟩⟩

end Sources

/-! ## Runs -/

/-- What stops a run. -/
inductive Stops (home : Path) (o : Options) (j : Journal) : FileError → Prop
  /-- The root cannot be found. -/
  | root {e : FileError} (fails : RootFails home o j e) : Stops home o j e
  /-- The manifest cannot be read, but not because there is none. -/
  | manifest {places : Places} {j₁ : Journal} {p : Path} {e : FileError}
      (found : (Places.ofOptions o home).run j = (.ok places, j₁))
      (named : places.manifest = some p) (fails : ReadFails j₁ p e)
      (present : ∀ paths, e ≠ .os ⟨.noEntry, paths⟩) : Stops home o j e
  /-- The fragments' directory cannot be tested, or a fragment cannot be asked for. -/
  | fragments {places : Places} {j₁ j₂ : Journal} {m : Manifest} {e : FileError}
      (found : (Places.ofOptions o home).run j = (.ok places, j₁))
      (chosen : (chooseManifest places.manifest).run j₁ = (.ok m, j₂))
      (fails : FragmentsFail j₂ places.fragments e) : Stops home o j e
  /-- A document that is checked cannot be tested or read. -/
  | check {places : Places} {j₁ j₂ j₃ : Journal} {prepared : Prepared} {front rest : List Mode}
      {mode : Mode} {passed : List (Option Problem)} {e : FileError}
      (found : (Places.ofOptions o home).run j = (.ok places, j₁))
      (made : (prepare o places).run j₁ = (.ok prepared, j₂)) (checks : o.check = true)
      (split : Mode.all = front ++ mode :: rest)
      (before : (front.mapM (checkDocument prepared.docs places.output)).run j₂ =
        (.ok passed, j₃))
      (fails : CheckFails j₃ (places.output.child (outputName mode)) e) : Stops home o j e
  /-- The documents cannot be written. -/
  | write {places : Places} {j₁ j₂ : Journal} {prepared : Prepared} {e : FileError}
      (found : (Places.ofOptions o home).run j = (.ok places, j₁))
      (made : (prepare o places).run j₁ = (.ok prepared, j₂)) (writes : o.check = false)
      (failed : ((writeDocuments prepared.docs places.output).run j₂).1 = .error e) :
      Stops home o j e

/-- Why a run refuses its sources, in the words of the report. -/
inductive Refused (home : Path) (o : Options) (j : Journal) : String → Prop
  | manifest {places : Places} {j₁ : Journal} {p : Path} {cause : ManifestError}
      (found : (Places.ofOptions o home).run j = (.ok places, j₁))
      (named : places.manifest = some p)
      (failed : ((loadManifest p).run j₁).1 = .ok (.error cause)) : Refused home o j cause.message
  | fragments {places : Places} {j₁ j₂ : Journal} {m : Manifest} {cause : FragmentError}
      (found : (Places.ofOptions o home).run j = (.ok places, j₁))
      (chosen : (chooseManifest places.manifest).run j₁ = (.ok m, j₂))
      (failed : ((loadFragments places.fragments).run j₂).1 = .ok (.error cause)) :
      Refused home o j cause.message

/-- The check finds the problems, with the documents behind the line. -/
structure Finds (home : Path) (o : Options) (j : Journal) (line : String)
    (problems : List Problem) : Prop where
  checks : o.check = true
  found : ∃ places j₁ prepared j₂, (Places.ofOptions o home).run j = (.ok places, j₁) ∧
    (prepare o places).run j₁ = (.ok prepared, j₂) ∧
    line = (if o.verbose then prepared.summary else "") ∧
    ((checkDocuments prepared.docs places.output).run j₂).1 = .ok problems

/-- The courses that a run can take: how it ends and what it says. -/
inductive Course (home : Path) (o : Options) (j : Journal) : Ending → String → Prop
  | refused {message : String} (why : Refused home o j message) :
      Course home o j (.status 2) ("wastgen: ERROR: " ++ message ++ "\n")
  | stopped {e : FileError} {line : String} (why : Stops home o j e) :
      Course home o j (.stopped (.file e)) line
  | problems {line : String} {problems : List Problem} (finds : Finds home o j line problems)
      (nonempty : problems ≠ []) :
      Course home o j (.status 1) (line ++ report (problems.map (·.message)))
  | done {line : String} : Course home o j (.status 0) line

section Runs

variable {home : Path} {arguments : List String} {o : Options} {j j₁ j₂ : Journal}
  {places : Places} {prepared : Prepared} {cause : Failure} {e : FileError}
  {message line : String} {problems : List Problem}

/-- A run whose sources fail is stopped or reports it. -/
theorem SourceFails.cases (fails : SourceFails places j₁ cause)
    (found : (Places.ofOptions o home).run j = (.ok places, j₁)) :
    (∃ e, cause = .file e ∧ Stops home o j e) ∨
      cause.isReported = true ∧ Refused home o j cause.message := by
  cases fails with
  | manifest named failed =>
      obtain ⟨fails, present⟩ := loadManifest_eq_error_iff.mp failed
      exact .inl ⟨_, rfl, .manifest found named fails present⟩
  | refusedManifest named failed => exact .inr ⟨rfl, .manifest found named failed⟩
  | fragments chosen failed =>
      exact .inl ⟨_, rfl, .fragments found chosen (loadFragments_eq_error_iff.mp failed)⟩
  | refusedFragments chosen failed => exact .inr ⟨rfl, .fragments found chosen failed⟩

theorem runOptions_of_root (failed : ((Places.ofOptions o home).run j).1 = .error e) :
    (runOptions home o j).ending = .stopped (.file e) := by
  obtain ⟨j₁, failed⟩ := Action.run_fst_iff.mp failed
  rw [runOptions, failed]
  rfl

theorem runOptions_of_sources (found : (Places.ofOptions o home).run j = (.ok places, j₁))
    (failed : SourceFails places j₁ cause) : ∃ j₂, runOptions home o j = fail cause "" j₂ := by
  obtain ⟨j₂, failed⟩ := Action.run_fst_iff.mp ((prepare_eq_error_iff (o := o)).mpr failed)
  rw [runOptions, found]
  dsimp only
  rw [failed]
  exact ⟨j₂, rfl⟩

theorem runOptions_of_check (found : (Places.ofOptions o home).run j = (.ok places, j₁))
    (made : (prepare o places).run j₁ = (.ok prepared, j₂)) (checks : o.check = true) :
    runOptions home o j =
      runCheck prepared places (if o.verbose then prepared.summary else "") j₂ := by
  rw [runOptions_of_prepare found made, runPrepared, if_pos checks]

theorem runOptions_of_write (found : (Places.ofOptions o home).run j = (.ok places, j₁))
    (made : (prepare o places).run j₁ = (.ok prepared, j₂)) (writes : o.check = false) :
    runOptions home o j =
      runWrite o prepared places (if o.verbose then prepared.summary else "") j₂ := by
  rw [runOptions_of_prepare found made, runPrepared, if_neg (Bool.eq_false_iff.mp writes)]

theorem Stops.ending (h : Stops home o j e) :
    (runOptions home o j).ending = .stopped (.file e) := by
  cases h with
  | root fails => exact runOptions_of_root (ofOptions_eq_error_iff.mpr fails)
  | manifest found named fails present =>
      obtain ⟨j₂, same⟩ := runOptions_of_sources found
        (.manifest named (loadManifest_eq_error_iff.mpr ⟨fails, present⟩))
      rw [same]
      rfl
  | fragments found chosen fails =>
      obtain ⟨j₂, same⟩ := runOptions_of_sources found
        (.fragments chosen (loadFragments_eq_error_iff.mpr fails))
      rw [same]
      rfl
  | check found made checks split before fails =>
      obtain ⟨j₄, failed⟩ := Action.run_fst_iff.mp ((checkDocuments_eq_error_iff _).mpr
        ⟨_, _, _, _, _, split, before, fails⟩)
      rw [runOptions_of_check found made checks, runCheck, failed]
      rfl
  | write found made writes failed =>
      obtain ⟨j₃, failed⟩ := Action.run_fst_iff.mp failed
      rw [runOptions_of_write found made writes, runWrite, failed]
      rfl

theorem Refused.ending (h : Refused home o j message) :
    (runOptions home o j).ending = .status 2 ∧
      (runOptions home o j).stderr = "wastgen: ERROR: " ++ message ++ "\n" := by
  cases h with
  | manifest found named failed =>
      obtain ⟨j₂, same⟩ := runOptions_of_sources found (.refusedManifest named failed)
      rw [same]
      exact ⟨rfl, rfl⟩
  | fragments found chosen failed =>
      obtain ⟨j₂, same⟩ := runOptions_of_sources found (.refusedFragments chosen failed)
      rw [same]
      exact ⟨rfl, rfl⟩

theorem Finds.ending (h : Finds home o j line problems) :
    (runOptions home o j).ending = .status (if problems.isEmpty then 0 else 1) ∧
      (runOptions home o j).stderr = line ++ report (problems.map (·.message)) := by
  obtain ⟨checks, places, j₁, prepared, j₂, found, made, rfl, listed⟩ := h
  obtain ⟨j₃, listed⟩ := Action.run_fst_iff.mp listed
  rw [runOptions_of_check found made checks, runCheck, listed]
  exact ⟨rfl, rfl⟩

/-- **Every run takes one of the courses.** -/
theorem runOptions_course (home : Path) (o : Options) (j : Journal) :
    Course home o j (runOptions home o j).ending (runOptions home o j).stderr := by
  -- the cases are the parts of a run, each from the journal that the part before it left
  have stopped {e : FileError} (why : Stops home o j e) :
      Course home o j (runOptions home o j).ending (runOptions home o j).stderr := by
    rw [why.ending]
    exact .stopped why
  cases found : (Places.ofOptions o home).run j with
  | mk r j₁ =>
      cases r with
      | error e =>
          exact stopped (.root (ofOptions_eq_error_iff.mp (Action.run_fst_iff.mpr ⟨_, found⟩)))
      | ok places =>
          cases made : (prepare o places).run j₁ with
          | mk r j₂ =>
              cases r with
              | error cause =>
                  have fails := prepare_eq_error_iff.mp (Action.run_fst_iff.mpr ⟨_, made⟩)
                  rcases fails.cases found with ⟨e, rfl, why⟩ | ⟨-, why⟩
                  · exact stopped why
                  · obtain ⟨ending, said⟩ := why.ending
                    rw [ending, said]
                    exact .refused why
              | ok prepared =>
                  cases check : o.check with
                  | true =>
                      cases listed : ((checkDocuments prepared.docs places.output).run j₂).1 with
                      | error e =>
                          obtain ⟨_, _, _, _, _, split, before, fails⟩ :=
                            (checkDocuments_eq_error_iff _).mp listed
                          exact stopped (.check found made check split before fails)
                      | ok problems =>
                          have finds : Finds home o j _ problems :=
                            ⟨check, places, j₁, prepared, j₂, found, made, rfl, listed⟩
                          obtain ⟨ending, said⟩ := finds.ending
                          rw [ending, said]
                          cases problems with
                          | nil => exact .done
                          | cons problem rest => exact .problems finds (List.cons_ne_nil _ _)
                  | false =>
                      cases wrote : (writeDocuments prepared.docs places.output).run j₂ with
                      | mk r j₃ =>
                          cases r with
                          | error e =>
                              exact stopped (.write found made check (by rw [wrote]))
                          | ok paths =>
                              rw [runOptions_of_write found made check, runWrite, wrote]
                              exact .done

theorem runOptions_stopped_iff :
    (runOptions home o j).ending = .stopped (.file e) ↔ Stops home o j e := by
  refine ⟨fun stopped => ?_, Stops.ending⟩
  have course := runOptions_course home o j
  rw [stopped] at course
  generalize (runOptions home o j).stderr = line at course
  cases course with
  | stopped why => exact why

theorem runOptions_refused_iff :
    ((runOptions home o j).ending = .status 2 ∧ (runOptions home o j).stderr = line) ↔
      ∃ message, Refused home o j message ∧ line = "wastgen: ERROR: " ++ message ++ "\n" := by
  constructor
  · rintro ⟨two, said⟩
    have course := runOptions_course home o j
    rw [two, said] at course
    cases course with
    | refused why => exact ⟨_, why, rfl⟩
  · rintro ⟨message, refused, rfl⟩
    exact refused.ending

theorem runOptions_problems_iff :
    ((runOptions home o j).ending = .status 1 ∧ (runOptions home o j).stderr = line) ↔
      ∃ first problems, Finds home o j first problems ∧ problems ≠ [] ∧
        line = first ++ report (problems.map (·.message)) := by
  constructor
  · rintro ⟨one, said⟩
    have course := runOptions_course home o j
    rw [one, said] at course
    cases course with
    | problems finds nonempty => exact ⟨_, _, finds, nonempty, rfl⟩
  · rintro ⟨first, problems, finds, nonempty, rfl⟩
    obtain ⟨ending, said⟩ := finds.ending
    refine ⟨ending.trans ?_, said⟩
    rw [if_neg (by simpa using nonempty)]

theorem runOptions_ending (home : Path) (o : Options) (j : Journal) :
    (∃ code ≤ 2, (runOptions home o j).ending = .status code) ∨
      ∃ e, (runOptions home o j).ending = .stopped (.file e) := by
  have course := runOptions_course home o j
  generalize (runOptions home o j).ending = ending at course ⊢
  generalize (runOptions home o j).stderr = line at course
  cases course with
  | refused why => exact .inl ⟨2, le_refl 2, rfl⟩
  | stopped why => exact .inr ⟨_, rfl⟩
  | problems finds nonempty => exact .inl ⟨1, by decide, rfl⟩
  | done => exact .inl ⟨0, by decide, rfl⟩

/-- **Where failures go.** A run ends with status 0, 1 or 2, or is stopped by something that could
not be done with a file, and by nothing else. What stops it is what `Stops` lists: a root that
cannot be found, a manifest that is there but cannot be read, a fragments' directory that cannot be
tested or a fragment that cannot be asked for, a document that is checked and cannot be read, and
documents that cannot be written. It ends with status 2 exactly if its arguments are no request, or
its manifest is missing or refused, or its fragments are refused, and says so; and with status 1
exactly if it checks and finds problems, and lists them. -/
theorem failures_reported_iff (home : Path) (arguments : List String) (t : Tree)
    (faults : List (Option Fault)) :
    ((∃ code ≤ 2, (run home arguments t faults).ending = .status code) ∨
      ∃ e, (run home arguments t faults).ending = .stopped (.file e)) ∧
    (∀ e, (run home arguments t faults).ending = .stopped (.file e) ↔
      ∃ o, Request.ofArguments arguments = .ok (.run o) ∧
        Stops home o { tree := t, faults } e) ∧
    (∀ line, (run home arguments t faults).ending = .status 2 ∧
        (run home arguments t faults).stderr = line ↔
      (∃ e, Request.ofArguments arguments = .error e ∧
        line = usage ++ "wastgen: error: " ++ e.message ++ "\n") ∨
      ∃ o, Request.ofArguments arguments = .ok (.run o) ∧
        ∃ message, Refused home o { tree := t, faults } message ∧
          line = "wastgen: ERROR: " ++ message ++ "\n") ∧
    ∀ line, (run home arguments t faults).ending = .status 1 ∧
        (run home arguments t faults).stderr = line ↔
      ∃ o, Request.ofArguments arguments = .ok (.run o) ∧
        ∃ first problems, Finds home o { tree := t, faults } first problems ∧ problems ≠ [] ∧
          line = first ++ report (problems.map (·.message)) := by
  rw [run]
  cases Request.ofArguments arguments with
  | error e =>
      refine ⟨.inl ⟨2, le_refl 2, rfl⟩, by simp, fun line => ?_, by simp⟩
      simp [eq_comm]
  | ok request =>
      cases request with
      | help => exact ⟨.inl ⟨0, by decide, rfl⟩, by simp, by simp, by simp⟩
      | run o =>
          simp only [Except.ok.injEq, Request.run.injEq, exists_eq_left', reduceCtorEq, false_and,
            exists_false, false_or]
          exact ⟨runOptions_ending home o _, fun e => runOptions_stopped_iff,
            fun line => runOptions_refused_iff, fun line => runOptions_problems_iff⟩

end Runs

/-- What a run of the installation leaves without a status. -/
def stopsWith (arguments : List String) (t : Tree) (faults : List (Option Fault)) :
    Option FileError :=
  match (run ⟨.root, ["home"]⟩ arguments t faults).ending with
  | .stopped (.file e) => some e
  | _ => none

/-- The bare checkout with a directory at a place. -/
def blocked (place : Location) : Tree := bareCheckout.put place .directory

/-- A directory stops the run in the place of the manifest or of a document, whether that is checked
or written, and so do bytes that are no text in the manifest's place. A manifest may also be refused
to the reader, or have a name that is too long or a null character, and a root may be a link to
itself. In the place of a fragment the directory is reported. -/
theorem directory_stops :
    let write := ["--manifest", "m.json"]
    stopsWith write (blocked ["w", "m.json"]) [] =
        some (.os ⟨.isDirectory, [Path.ofString "m.json"]⟩) ∧
      stopsWith write (bareCheckout.put ["w", "m.json"] (.file [255])) [] =
        some (.undecodable ⟨255, 0, 1, .invalidStart⟩) ∧
      stopsWith (write ++ ["--check"]) (blocked ["w", "wasm", "wast.json"]) [] =
        some (.os ⟨.isDirectory, [Path.ofString "/w/wasm/wast.json"]⟩) ∧
      stopsWith write (blocked ["w", "wasm", "wast.json.tmp"]) [] =
        some (.os ⟨.isDirectory, [Path.ofString "/w/wasm/wast.json.tmp"]⟩) ∧
      stopsWith write bareCheckout [none, none, some ⟨⟨13⟩, 0⟩] =
        some (.os ⟨⟨13⟩, [Path.ofString "m.json"]⟩) ∧
      stopsWith ["--manifest", "\x00"] bareCheckout [] = some .nullCharacter ∧
      stopsWith ["--root", "loop"]
          (bareCheckout.put ["w", "loop"] (.link (Path.ofString "loop"))) [] =
        some (.linkLoop (Path.ofString "/w/loop")) ∧
      (run ⟨.root, ["home"]⟩ write (blocked ["w", "wasm", "a.wast"])).ending = .status 2 := by
  refine ⟨?_, ?_, ?_, ?_, ?_, ?_, ?_, ?_⟩ <;> decide +kernel

end HostGlue.Cli
