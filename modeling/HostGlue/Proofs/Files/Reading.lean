import HostGlue.Files.Publication
import HostGlue.Files.Sources
import HostGlue.Proofs.Files.Actions

/-!
# Reading and testing

A text is read by two calls, one that opens the file and one that reads it, and each of them may be
refused; what was read may still be no text. `ReadFails` lists the ways in which this goes wrong,
and `readText_eq_error_iff` says that there are no others. A test for what stands at a path takes
some refusals for an answer and passes the others on. What a manifest, a fragment directory and a
document make of this follows by cases.
-/

namespace HostGlue.Files

open Interface

/-- At the path there is a file that holds the text, and the system can be asked for it. -/
def Tree.HoldsText (t : Tree) (p : Path) (text : String) : Prop :=
  p.hasNull = false ∧ ∃ bytes, t.find? p = some (.file bytes) ∧ Text.Utf8.decode bytes = .ok text

/-- The ways in which a text cannot be read. -/
inductive ReadFails (j : Journal) (p : Path) : FileError → Prop
  | null (illegal : p.hasNull = true) : ReadFails j p .nullCharacter
  | opening {code : OsCode} (legal : p.hasNull = false)
      (refused : j.answer (·.bytesAt p) = .error code) : ReadFails j p (.os ⟨code, [p]⟩)
  | reading {bytes : List UInt8} {fault : Fault} (legal : p.hasNull = false)
      (opened : j.answer (·.bytesAt p) = .ok bytes) (met : j.later.fault = some fault) :
      ReadFails j p (.os ⟨fault.code, []⟩)
  | decoding {bytes : List UInt8} {fault : Text.Utf8.Fault} (legal : p.hasNull = false)
      (opened : j.answer (·.bytesAt p) = .ok bytes) (met : j.later.fault = none)
      (refused : Text.Utf8.decode bytes = .error fault) : ReadFails j p (.undecodable fault)

/-- The refusals that a test for what stands at a path passes on. -/
def ProbeFails (j : Journal) (p : Path) (e : FileError) : Prop :=
  p.hasNull = false ∧ ∃ code, j.answer (·.stat p) = .error code ∧ code.meansAbsent = false ∧
    e = .os ⟨code, [p]⟩

/-- The working directory is gone, or cannot be asked for. -/
def StartFails (j : Journal) (e : FileError) : Prop :=
  (∃ fault, j.fault = some fault ∧ e = .os ⟨fault.code, []⟩) ∨
    j.fault = none ∧ j.tree.entry j.tree.workingDirectory ≠ some .directory ∧
      e = .os ⟨.noEntry, []⟩

/-- The ways in which a path cannot be resolved. A null character may also come in with a link or
the working directory. -/
inductive ResolveFails (j : Journal) (p : Path) : FileError → Prop
  | null (illegal : p.hasNull = true) : ResolveFails j p .nullCharacter
  | start {e : FileError} (legal : p.hasNull = false) (relative : p.anchor = .relative)
      (fails : StartFails j e) : ResolveFails j p e
  | nullInside {j₁ : Journal} (legal : p.hasNull = false)
      (started : (Action.requireStart p).run j = (.ok (), j₁))
      (illegal : (j.tree.resolve p).hasNull = true) : ResolveFails j p .nullCharacter
  | circle {j₁ : Journal} (legal : p.hasNull = false)
      (started : (Action.requireStart p).run j = (.ok (), j₁))
      (resolved : (j.tree.resolve p).hasNull = false)
      (refused : j₁.answer (·.stat (j.tree.resolve p)) = .error .tooManyLinks) :
      ResolveFails j p (.linkLoop (j.tree.resolve p))

variable {t : Tree} {j : Journal} {p directory : Path} {bytes : List UInt8} {e : FileError}
  {text : String}

theorem Journal.answer_eq_ok_iff {α : Type} {look : Tree → Except OsCode α} {x : α} :
    j.answer look = .ok x ↔ j.fault = none ∧ look j.tree = .ok x := by
  rw [Journal.answer]
  cases j.fault with
  | none => simp
  | some fault => exact iff_of_false (by rintro ⟨⟩) (by simp)

namespace Action

/-! ## Texts -/

theorem asText_eq_error_iff {j' : Journal} : (asText bytes).run j = (.error e, j') ↔
    (∃ fault, Text.Utf8.decode bytes = .error fault ∧ e = .undecodable fault) ∧ j' = j := by
  unfold asText
  cases Text.Utf8.decode bytes with
  | ok text => exact iff_of_false (by rintro ⟨⟩) (by simp)
  | error fault =>
      constructor
      · rintro ⟨⟩
        exact ⟨⟨fault, rfl, rfl⟩, rfl⟩
      · rintro ⟨⟨fault, ⟨⟩, rfl⟩, rfl⟩
        rfl

/-- **How reading a text fails.** -/
theorem readText_eq_error_iff : ((readText p).run j).1 = .error e ↔ ReadFails j p e := by
  rw [run_fst_iff]
  simp only [readText, run_bind_eq_error_iff, ask_eq_error_iff, ask_eq_ok_iff, asText_eq_error_iff,
    List.any_cons, List.any_nil, Bool.or_false]
  constructor
  · rintro ⟨j', (⟨illegal, rfl, -⟩ | ⟨legal, code, refused, rfl, -⟩) |
      ⟨held, j₁, ⟨legal, opened, rfl⟩, rest⟩⟩
    · exact .null illegal
    · exact .opening legal refused
    · rcases rest with (⟨⟨⟩, -⟩ | ⟨-, code, refused, rfl, -⟩) |
        ⟨bytes, j₂, ⟨-, given, -⟩, ⟨fault, refused, rfl⟩, -⟩
      -- the file is open, and what it gives is no longer the tree's to refuse: only a fault does
      · rw [Journal.answer] at refused
        split at refused
        · next fault met =>
            cases refused
            exact .reading legal opened met
        · cases refused
      · obtain ⟨met, same⟩ := Journal.answer_eq_ok_iff.mp given
        cases same
        exact .decoding legal opened met refused
  · intro fails
    cases fails with
    | null illegal => exact ⟨_, .inl (.inl ⟨illegal, rfl, rfl⟩)⟩
    | opening legal refused => exact ⟨_, .inl (.inr ⟨legal, _, refused, rfl, rfl⟩)⟩
    | reading legal opened met =>
        refine ⟨_, .inr ⟨_, _, ⟨legal, opened, rfl⟩, .inl (.inr ⟨trivial, _, ?_, rfl, rfl⟩)⟩⟩
        rw [Journal.answer, met]
    | decoding legal opened met refused =>
        exact ⟨_, .inr ⟨_, _, ⟨legal, opened, rfl⟩, .inr ⟨_, _,
          ⟨trivial, Journal.answer_eq_ok_iff.mpr ⟨met, rfl⟩, rfl⟩, ⟨_, refused, rfl⟩, rfl⟩⟩⟩

theorem readText_eq_ok {j' : Journal} (h : (readText p).run j = (.ok text, j')) :
    ∃ content, j.tree.HoldsText p content ∧ text = Text.asRead content := by
  simp only [readText, run_bind_eq_ok_iff, ask_eq_ok_iff, List.any_cons, List.any_nil,
    Bool.or_false] at h
  obtain ⟨held, j₁, ⟨legal, opened, rfl⟩, bytes, j₂, ⟨-, given, rfl⟩, decoded⟩ := h
  obtain ⟨-, opened⟩ := Journal.answer_eq_ok_iff.mp opened
  obtain ⟨-, same⟩ := Journal.answer_eq_ok_iff.mp given
  cases same
  unfold asText at decoded
  split at decoded
  · next content read =>
      cases decoded
      exact ⟨content, ⟨legal, held, Tree.bytesAt_eq_ok_iff.mp opened, read⟩, rfl⟩
  · cases decoded

/-- A text that is the same in another tree is read there too. -/
theorem carries_readText {t' : Tree} (same : ∀ bytes, t.find? p = some (.file bytes) →
    t'.find? p = some (.file bytes)) : Carries t t' anyAnswer (readText p) := by
  refine Carries.bind_any (carries_ask fun bytes found => ?_) fun _ =>
    Carries.bind_any (carries_ask fun _ given => given) fun bytes => ?_
  · rw [Tree.bytesAt_eq_ok_iff] at found ⊢
    exact same bytes found
  · unfold asText
    split
    · exact carries_pure _
    · exact carries_throw _

/-- Without faults the text of a file is read. -/
theorem run_readText_ok {content : String} (free : j.faults = [])
    (held : j.tree.HoldsText p content) :
    (readText p).run j = (.ok (Text.asRead content), j) := by
  obtain ⟨legal, bytes, found, decoded⟩ := held
  have opened : (ask [p] (·.bytesAt p)).run j = (.ok bytes, j) := by
    rw [run_ask_faultless _ free (by simp [legal]), Tree.bytesAt_eq_ok_iff.mpr found]
    rfl
  have given : (ask [] fun _ => .ok bytes).run j = (.ok bytes, j) := run_ask_faultless _ free rfl
  rw [readText, run_bind, opened]
  dsimp only
  rw [run_bind, given]
  dsimp only
  rw [asText, decoded]
  rfl

/-! ## Tests -/

theorem probe_eq_some_iff {item : Item} {j' : Journal} :
    (probe p).run j = (.ok (some item), j') ↔
      p.hasNull = false ∧ j.answer (·.stat p) = .ok item ∧ j' = j.later := by
  rw [probe, tryCatch_eq_ok_iff]
  constructor
  · rintro (asked | ⟨e, j₁, -, handled⟩)
    · obtain ⟨found, j₁, asked, same⟩ := run_bind_eq_ok_iff.mp asked
      cases same
      simpa using ask_eq_ok_iff.mp asked
    · split at handled
      · split at handled <;> cases handled
      · cases handled
      · cases handled
  · rintro ⟨legal, found, rfl⟩
    refine .inl (run_bind_eq_ok_iff.mpr ⟨item, j.later, ask_eq_ok_iff.mpr ⟨?_, found, rfl⟩, rfl⟩)
    simp [legal]

/-- **How a test fails.** -/
theorem probe_eq_error_iff : ((probe p).run j).1 = .error e ↔ ProbeFails j p e := by
  rw [run_fst_iff]
  simp only [probe, tryCatch_eq_error_iff, run_bind_eq_error_iff, ask_eq_error_iff, List.any_cons,
    List.any_nil, Bool.or_false]
  constructor
  · rintro ⟨j', e₁, j₁, (⟨-, rfl, -⟩ | ⟨legal, code, refused, rfl, -⟩) | ⟨_, _, -, ⟨⟩⟩, handled⟩
    · cases handled
    · dsimp only at handled
      split at handled
      · cases handled
      · next other =>
          cases handled
          exact ⟨legal, code, refused, Bool.eq_false_iff.mpr other, rfl⟩
  · rintro ⟨legal, code, refused, other, rfl⟩
    refine ⟨j.later, _, _, .inl (.inr ⟨legal, code, refused, rfl, rfl⟩), ?_⟩
    dsimp only
    rw [other, if_neg Bool.false_ne_true]
    rfl

theorem isDirectory_eq_error_iff : ((isDirectory p).run j).1 = .error e ↔ ProbeFails j p e := by
  rw [← probe_eq_error_iff, run_fst_iff, run_fst_iff]
  refine exists_congr fun j' => ?_
  rw [isDirectory, run_bind_eq_error_iff, or_iff_left]
  rintro ⟨_, _, -, ⟨⟩⟩

theorem contains_eq_error_iff : ((contains p).run j).1 = .error e ↔ ProbeFails j p e := by
  rw [← probe_eq_error_iff, run_fst_iff, run_fst_iff]
  refine exists_congr fun j' => ?_
  rw [contains, run_bind_eq_error_iff, or_iff_left]
  rintro ⟨_, _, -, ⟨⟩⟩

theorem contains_eq_true_iff {j' : Journal} : (contains p).run j = (.ok true, j') ↔
    p.hasNull = false ∧ (∃ item, j.answer (·.stat p) = .ok item) ∧ j' = j.later := by
  rw [contains, run_bind_eq_ok_iff]
  constructor
  · rintro ⟨found, j₁, probed, same⟩
    cases found with
    | none => cases same
    | some item =>
        cases same
        obtain ⟨legal, there, rfl⟩ := probe_eq_some_iff.mp probed
        exact ⟨legal, ⟨item, there⟩, rfl⟩
  · rintro ⟨legal, ⟨item, there⟩, rfl⟩
    exact ⟨some item, _, probe_eq_some_iff.mpr ⟨legal, there, rfl⟩, rfl⟩

theorem isDirectory_eq_true_iff {j' : Journal} : (isDirectory p).run j = (.ok true, j') ↔
    p.hasNull = false ∧ j.answer (·.stat p) = .ok .directory ∧ j' = j.later := by
  rw [isDirectory, run_bind_eq_ok_iff]
  constructor
  · rintro ⟨found, j₁, probed, same⟩
    obtain ⟨there, rfl⟩ := Prod.mk.inj same
    obtain rfl := of_decide_eq_true (Except.ok.inj there)
    exact probe_eq_some_iff.mp probed
  · rintro ⟨legal, there, rfl⟩
    exact ⟨_, _, probe_eq_some_iff.mpr ⟨legal, there, rfl⟩, rfl⟩

/-- A directory that is there in another tree too is found there. -/
theorem carries_isDirectory {t' : Tree} (same : ∀ goal, t.Reaches p goal → t'.Reaches p goal) :
    Carries t t' (· = true) (isDirectory p) := by
  rintro j x j' rfl ended rfl
  obtain ⟨legal, there, rfl⟩ := isDirectory_eq_true_iff.mp ended
  obtain ⟨-, there⟩ := Journal.answer_eq_ok_iff.mp there
  obtain ⟨goal, reached⟩ := Tree.stat_eq_directory_iff.mp there
  exact ⟨rfl, isDirectory_eq_true_iff.mpr ⟨legal, Journal.answer_eq_ok_iff.mpr
    ⟨rfl, Tree.stat_eq_directory_iff.mpr ⟨goal, same goal reached⟩⟩, rfl⟩⟩

/-! ## Where paths start -/

theorem workingDirectory_eq_error_iff :
    ((workingDirectory).run j).1 = .error e ↔ StartFails j e := by
  rw [run_fst_iff]
  simp only [workingDirectory, ask_eq_error_iff, List.any_nil, Bool.false_eq_true, false_and,
    false_or, true_and]
  rw [StartFails, Journal.answer]
  cases j.fault with
  | some fault =>
      constructor
      · rintro ⟨j', code, ⟨⟩, rfl, -⟩
        exact .inl ⟨fault, rfl, rfl⟩
      · rintro (⟨fault, ⟨⟩, rfl⟩ | ⟨⟨⟩, -⟩)
        exact ⟨_, _, rfl, rfl, rfl⟩
  | none =>
      dsimp only
      split
      · next here =>
          rw [Tree.lookup_eq_directory_iff] at here
          refine iff_of_false (by rintro ⟨_, _, ⟨⟩, -⟩) ?_
          rintro (⟨_, ⟨⟩, -⟩ | ⟨-, gone, -⟩)
          exact gone here
      · next gone =>
          rw [Tree.lookup_eq_directory_iff] at gone
          constructor
          · rintro ⟨j', code, ⟨⟩, rfl, -⟩
            exact .inr ⟨rfl, gone, rfl⟩
          · rintro (⟨_, ⟨⟩, -⟩ | ⟨-, -, rfl⟩)
            exact ⟨_, _, rfl, rfl, rfl⟩

theorem requireStart_eq_error_iff : ((requireStart p).run j).1 = .error e ↔
    p.anchor = .relative ∧ StartFails j e := by
  unfold requireStart
  split
  · next relative =>
      rw [and_iff_right relative, ← workingDirectory_eq_error_iff, run_fst_iff, run_fst_iff]
      refine exists_congr fun j' => ?_
      show (workingDirectory >>= fun _ => pure () : Action Unit).run j = _ ↔ _
      rw [run_bind_eq_error_iff, or_iff_left]
      rintro ⟨_, _, -, ⟨⟩⟩
  · next absolute => exact iff_of_false nofun fun h => absolute h.1

theorem refuseCircle_eq_error_iff : ((refuseCircle p).run j).1 = .error e ↔
    p.hasNull = true ∧ e = .nullCharacter ∨
      p.hasNull = false ∧ j.answer (·.stat p) = .error .tooManyLinks ∧ e = .linkLoop p := by
  rw [run_fst_iff]
  simp only [refuseCircle, tryCatch_eq_error_iff, run_bind_eq_error_iff, ask_eq_error_iff,
    List.any_cons, List.any_nil, Bool.or_false]
  constructor
  · rintro ⟨j', e₁, j₁,
      (⟨illegal, rfl, -⟩ | ⟨legal, code, refused, rfl, -⟩) | ⟨_, _, -, ⟨⟩⟩, handled⟩
    · cases handled
      exact .inl ⟨illegal, rfl⟩
    · dsimp only at handled
      split at handled
      · next round =>
          cases handled
          exact .inr ⟨legal, round ▸ refused, rfl⟩
      · cases handled
  · rintro (⟨illegal, rfl⟩ | ⟨legal, refused, rfl⟩)
    · exact ⟨j, _, _, .inl (.inl ⟨illegal, rfl, rfl⟩), rfl⟩
    · exact ⟨j.later, _, _, .inl (.inr ⟨legal, _, refused, rfl, rfl⟩), rfl⟩

/-- **How resolving a path fails.** -/
theorem resolve_eq_error_iff : ((resolve p).run j).1 = .error e ↔ ResolveFails j p e := by
  unfold resolve
  split
  · next illegal =>
      constructor
      · rintro ⟨⟩
        exact .null illegal
      · intro fails
        cases fails with
        | null => rfl
        | start legal => cases legal.symm.trans illegal
        | nullInside legal => cases legal.symm.trans illegal
        | circle legal => cases legal.symm.trans illegal
  · next legal =>
      rw [Bool.not_eq_true] at legal
      have given : (get : Action Journal).run j = (.ok j, j) := rfl
      rw [run_bind, given, run_fst_iff]
      simp only [run_bind_eq_error_iff]
      constructor
      · rintro ⟨j', failed | ⟨_, j₁, started, failed | ⟨_, _, -, ⟨⟩⟩⟩⟩
        · obtain ⟨relative, fails⟩ := requireStart_eq_error_iff.mp (run_fst_iff.mpr ⟨_, failed⟩)
          exact .start legal relative fails
        · rcases refuseCircle_eq_error_iff.mp (run_fst_iff.mpr ⟨_, failed⟩) with
            ⟨illegal, rfl⟩ | ⟨resolved, refused, rfl⟩
          · exact .nullInside legal started illegal
          · exact .circle legal started resolved refused
      · intro fails
        cases fails with
        | null illegal => cases legal.symm.trans illegal
        | start _ relative fails =>
            obtain ⟨j', failed⟩ := run_fst_iff.mp (requireStart_eq_error_iff.mpr ⟨relative, fails⟩)
            exact ⟨j', .inl failed⟩
        | nullInside _ started illegal =>
            obtain ⟨j', failed⟩ :=
              run_fst_iff.mp (refuseCircle_eq_error_iff.mpr (.inl ⟨illegal, rfl⟩))
            exact ⟨j', .inr ⟨_, _, started, .inl failed⟩⟩
        | circle _ started resolved refused =>
            obtain ⟨j', failed⟩ :=
              run_fst_iff.mp (refuseCircle_eq_error_iff.mpr (.inr ⟨resolved, refused, rfl⟩))
            exact ⟨j', .inr ⟨_, _, started, .inl failed⟩⟩

end Action

/-- The text at a path, for who meets no faults. -/
def Tree.readText (t : Tree) (p : Path) : Except FileError String :=
  ((Action.readText p).run { tree := t }).1

theorem Tree.readText_eq_ok_iff :
    t.readText p = .ok text ↔ ∃ content, t.HoldsText p content ∧ text = Text.asRead content := by
  rw [Tree.readText, Action.run_fst_iff]
  constructor
  · rintro ⟨j', read⟩
    exact Action.readText_eq_ok read
  · rintro ⟨content, held, rfl⟩
    exact ⟨_, Action.run_readText_ok rfl held⟩

/-! ## Sources and documents -/

/-- A manifest's file fails as a file in all the ways in which a text does, but for one: that there
is no file counts as a fault of the manifest. -/
theorem loadManifest_eq_error_iff : ((loadManifest p).run j).1 = .error e ↔
    ReadFails j p e ∧ ∀ paths, e ≠ .os ⟨.noEntry, paths⟩ := by
  rw [← Action.readText_eq_error_iff, Action.run_fst_iff, Action.run_fst_iff, ← exists_and_right]
  refine exists_congr fun j' => ?_
  rw [loadManifest, Action.tryCatch_eq_error_iff]
  constructor
  · rintro ⟨e₁, j₁, read, handled⟩
    rcases Action.run_bind_eq_error_iff.mp read with failed | ⟨_, _, -, ⟨⟩⟩
    split at handled
    · split at handled
      · cases handled
      · next other =>
          cases handled
          refine ⟨failed, fun paths same => other ?_⟩
          cases same
          rfl
    · next other =>
        cases handled
        exact ⟨failed, fun paths => other _⟩
  · rintro ⟨failed, other⟩
    refine ⟨e, j', Action.run_bind_eq_error_iff.mpr (.inl failed), ?_⟩
    split
    · next cause =>
        rw [if_neg]
        · rfl
        · intro same
          exact other cause.paths (by rw [← same])
    · rfl

/-- Of the fragments among the files the first one that cannot be read ends the reading. -/
theorem readFragments_eq_error_iff {files : List String} {j' : Journal} :
    (readFragments directory files).run j = (.error e, j') ↔
      ∃ front file rest found j₁, files = front ++ file :: rest ∧
        (fragmentName? file).isSome = true ∧
        (readFragments directory front).run j = (.ok found, j₁) ∧
        (Action.readText (directory.child file)).run j₁ = (.error e, j') := by
  induction files generalizing j with
  | nil =>
      refine iff_of_false (by rintro ⟨⟩) ?_
      rintro ⟨front, file, rest, _, _, split, -⟩
      simp at split
  | cons first others ih =>
      rw [readFragments]
      cases named : fragmentName? first with
      | none =>
          dsimp only
          rw [ih]
          constructor
          · rintro ⟨front, file, rest, found, j₁, rfl, fragment, passed, failed⟩
            refine ⟨first :: front, file, rest, found, j₁, rfl, fragment, ?_, failed⟩
            rw [readFragments, named]
            exact passed
          · rintro ⟨front, file, rest, found, j₁, split, fragment, passed, failed⟩
            cases front with
            | nil =>
                obtain ⟨rfl, -⟩ := List.cons.inj split
                rw [named] at fragment
                cases fragment
            | cons next front =>
                obtain ⟨rfl, rfl⟩ := List.cons.inj split
                rw [readFragments, named] at passed
                exact ⟨front, file, rest, found, j₁, rfl, fragment, passed, failed⟩
      | some name =>
          dsimp only
          rw [Action.run_bind_eq_error_iff]
          constructor
          · rintro (failed | ⟨text, j₁, read, failed⟩)
            · exact ⟨[], first, others, [], j, rfl, by rw [named]; rfl, rfl, failed⟩
            · rcases Action.run_bind_eq_error_iff.mp failed with failed | ⟨_, _, -, ⟨⟩⟩
              obtain ⟨front, file, rest, found, j₂, rfl, fragment, passed, failed⟩ := ih.mp failed
              refine ⟨first :: front, file, rest, (Text.ofString name, Text.ofString text) :: found,
                j₂, rfl, fragment, ?_, failed⟩
              rw [readFragments, named]
              exact Action.run_bind_eq_ok_iff.mpr ⟨text, j₁, read,
                Action.run_bind_eq_ok_iff.mpr ⟨found, j₂, passed, rfl⟩⟩
          · rintro ⟨front, file, rest, found, j₁, split, fragment, passed, failed⟩
            cases front with
            | nil =>
                obtain ⟨rfl, rfl⟩ := List.cons.inj split
                cases passed
                exact .inl failed
            | cons next front =>
                obtain ⟨rfl, rfl⟩ := List.cons.inj split
                rw [readFragments, named] at passed
                obtain ⟨text, j₂, read, passed⟩ := Action.run_bind_eq_ok_iff.mp passed
                obtain ⟨found', j₃, passed, same⟩ := Action.run_bind_eq_ok_iff.mp passed
                cases same
                exact .inr ⟨text, j₂, read, Action.run_bind_eq_error_iff.mpr
                  (.inl (ih.mpr ⟨front, file, rest, found', _, rfl, fragment, passed, failed⟩))⟩

/-- How the loading of fragments fails without a report: the directory cannot be tested, or a
fragment's name cannot be told to the system. -/
inductive FragmentsFail (j : Journal) (directory : Path) : FileError → Prop
  | probe {e : FileError} (fails : ProbeFails j directory e) : FragmentsFail j directory e
  | name {names front rest : List String} {file : String} {found : List (Text × Text)}
      {j₁ : Journal} (legal : directory.hasNull = false)
      (there : j.answer (·.stat directory) = .ok .directory)
      (listed : j.later.answer (·.namesAt directory) = .ok names)
      (split : names = front ++ file :: rest) (fragment : (fragmentName? file).isSome = true)
      (passed : (readFragments directory front).run j.later.later = (.ok found, j₁))
      (illegal : (directory.child file).hasNull = true) :
      FragmentsFail j directory .nullCharacter

theorem loadFragments_eq_error_iff :
    ((loadFragments directory).run j).1 = .error e ↔ FragmentsFail j directory e := by
  rw [Action.run_fst_iff]
  simp only [loadFragments, Action.run_bind_eq_error_iff]
  constructor
  · rintro ⟨j', failed | ⟨there, j₁, probed, rest⟩⟩
    · exact .probe (Action.isDirectory_eq_error_iff.mp (Action.run_fst_iff.mpr ⟨_, failed⟩))
    · cases there with
      | false => cases rest
      | true =>
          obtain ⟨legal, there, rfl⟩ := Action.isDirectory_eq_true_iff.mp probed
          obtain ⟨e₁, j₂, failed, handled⟩ := Action.tryCatch_eq_error_iff.mp rest
          rcases Action.run_bind_eq_error_iff.mp failed with failed | ⟨names, j₃, listed, failed⟩
          · rcases Action.ask_eq_error_iff.mp failed with ⟨illegal, -, -⟩ | ⟨-, code, -, rfl, -⟩
            · simp [legal] at illegal
            · cases handled
          · obtain ⟨-, answered, rfl⟩ := Action.ask_eq_ok_iff.mp listed
            rcases Action.run_bind_eq_error_iff.mp failed with failed | ⟨_, _, -, ⟨⟩⟩
            obtain ⟨front, file, others, found, j₄, split, fragment, passed, failed⟩ :=
              readFragments_eq_error_iff.mp failed
            have fails := Action.readText_eq_error_iff.mp (Action.run_fst_iff.mpr ⟨_, failed⟩)
            -- of the ways in which reading fails all but a null character are reported
            cases fails with
            | null illegal =>
                cases handled
                exact .name legal there answered split fragment passed illegal
            | opening => cases handled
            | reading => cases handled
            | decoding => cases handled
  · rintro (fails | ⟨legal, there, listed, split, fragment, passed, illegal⟩)
    · obtain ⟨j', failed⟩ := Action.run_fst_iff.mp (Action.isDirectory_eq_error_iff.mpr fails)
      exact ⟨j', .inl failed⟩
    · obtain ⟨j', failed⟩ := Action.run_fst_iff.mp
        (Action.readText_eq_error_iff.mpr (ReadFails.null illegal))
      refine ⟨j', .inr ⟨true, _, Action.isDirectory_eq_true_iff.mpr ⟨legal, there, rfl⟩,
        Action.tryCatch_eq_error_iff.mpr ⟨.nullCharacter, j', ?_, rfl⟩⟩⟩
      refine Action.run_bind_eq_error_iff.mpr (.inr ⟨_, _,
        Action.ask_eq_ok_iff.mpr ⟨by simp [legal], listed, rfl⟩,
        Action.run_bind_eq_error_iff.mpr (.inl ?_)⟩)
      exact readFragments_eq_error_iff.mpr ⟨_, _, _, _, _, split, fragment, passed, failed⟩

/-- How the check of one document fails: what stands at its path cannot be tested, or cannot be
read. -/
def CheckFails (j : Journal) (p : Path) (e : FileError) : Prop :=
  ProbeFails j p e ∨
    p.hasNull = false ∧ (∃ item, j.answer (·.stat p) = .ok item) ∧ ReadFails j.later p e

theorem checkDocument_eq_error_iff (docs : Documents) {mode : Mode} :
    ((checkDocument docs directory mode).run j).1 = .error e ↔
      CheckFails j (directory.child (outputName mode)) e := by
  rw [Action.run_fst_iff, checkDocument]
  simp only [Action.run_bind_eq_error_iff]
  constructor
  · rintro ⟨j', failed | ⟨there, j₁, found, rest⟩⟩
    · exact .inl (Action.contains_eq_error_iff.mp (Action.run_fst_iff.mpr ⟨_, failed⟩))
    · cases there with
      | false => cases rest
      | true =>
          obtain ⟨legal, item, rfl⟩ := Action.contains_eq_true_iff.mp found
          rcases Action.run_bind_eq_error_iff.mp rest with failed | ⟨_, _, -, ⟨⟩⟩
          exact .inr ⟨legal, item,
            Action.readText_eq_error_iff.mp (Action.run_fst_iff.mpr ⟨_, failed⟩)⟩
  · rintro (fails | ⟨legal, item, fails⟩)
    · obtain ⟨j', failed⟩ := Action.run_fst_iff.mp (Action.contains_eq_error_iff.mpr fails)
      exact ⟨j', .inl failed⟩
    · obtain ⟨j', failed⟩ := Action.run_fst_iff.mp (Action.readText_eq_error_iff.mpr fails)
      exact ⟨j', .inr ⟨true, _, Action.contains_eq_true_iff.mpr ⟨legal, item, rfl⟩,
        Action.run_bind_eq_error_iff.mpr (.inl failed)⟩⟩

/-- The check of both documents fails at the first one whose check does. -/
theorem checkDocuments_eq_error_iff (docs : Documents) :
    ((checkDocuments docs directory).run j).1 = .error e ↔
      ∃ front mode rest found j₁, Mode.all = front ++ mode :: rest ∧
        (front.mapM (checkDocument docs directory)).run j = (.ok found, j₁) ∧
        CheckFails j₁ (directory.child (outputName mode)) e := by
  have first (j' : Journal) : (checkDocuments docs directory).run j = (.error e, j') ↔
      (Mode.all.mapM (checkDocument docs directory)).run j = (.error e, j') := by
    rw [checkDocuments, Action.run_bind_eq_error_iff, or_iff_left]
    rintro ⟨_, _, -, ⟨⟩⟩
  simp only [Action.run_fst_iff, first, Action.run_mapM_eq_error_iff]
  constructor
  · rintro ⟨j', front, mode, rest, found, j₁, split, passed, failed⟩
    exact ⟨front, mode, rest, found, j₁, split, passed,
      (checkDocument_eq_error_iff docs).mp (Action.run_fst_iff.mpr ⟨_, failed⟩)⟩
  · rintro ⟨front, mode, rest, found, j₁, split, passed, fails⟩
    obtain ⟨j', failed⟩ := Action.run_fst_iff.mp ((checkDocument_eq_error_iff docs).mpr fails)
    exact ⟨j', front, mode, rest, found, j₁, split, passed, failed⟩

end HostGlue.Files
