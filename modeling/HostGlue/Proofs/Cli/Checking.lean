import HostGlue.Proofs.Cli.Publication
import HostGlue.Proofs.Document.Canonical
import HostGlue.Proofs.Files.Reading
import HostGlue.Proofs.Text.Utf8

/-!
# Checking behind the writing

A check reads what the paths of the documents lead to, with line ends unified, and compares it with
the texts that it expects. A document's text has no carriage return, so what was written is read as
it is, and the check compares the very texts. These tell the documents apart up to surrogate pairs:
`check_written` says which documents are reported.
-/

namespace HostGlue.Cli

open Files Interface

section Checking

variable {directory : Path} {docs : Documents} {j : Journal}

/-- A document's text holds nothing that reading would change. -/
theorem asRead_text (doc : Document) : Text.asRead doc.text = doc.text :=
  Text.asRead_eq_self_iff.mpr fun mem => absurd (doc.plain_text _ mem) (by decide)

/-- A document that was written is up to date exactly if its text is the other's. -/
theorem Held.checkDocument (h : Held j.tree directory docs)
    (free : j.faults = []) (legal : directory.hasNull = false) (other : Documents) (mode : Mode) :
    (checkDocument other directory mode).run j =
      (.ok (if (docs.get mode).text = (other.get mode).text then none
        else some (.outOfDate (directory.child (outputName mode)))), j) := by
  have found := h mode
  have legal : (directory.child (outputName mode)).hasNull = false :=
    Path.hasNull_child.mpr ⟨legal, by cases mode <;> decide⟩
  have there : (Action.contains (directory.child (outputName mode))).run j = (.ok true, j) := by
    rw [Action.contains, Action.run_bind,
      Action.run_probe_ok free legal (Tree.stat_eq_ok_iff.mpr found)]
    rfl
  have read := Action.run_readText_ok free ⟨legal, _, found, Text.Utf8.decode_encode _⟩
  rw [asRead_text] at read
  rw [Files.checkDocument, Action.run_bind, there]
  dsimp only
  rw [if_pos rfl, Action.run_bind, read]
  rfl

theorem Held.checkDocuments (h : Held j.tree directory docs)
    (free : j.faults = []) (legal : directory.hasNull = false) (other : Documents) :
    (checkDocuments other directory).run j =
      (.ok ((Mode.all.filter fun mode => (docs.get mode).text ≠ (other.get mode).text).map
        fun mode => .outOfDate (directory.child (outputName mode))), j) := by
  have found : (Mode.all.mapM (Files.checkDocument other directory)).run j =
      (.ok (Mode.all.map fun mode => if (docs.get mode).text = (other.get mode).text then none
        else some (.outOfDate (directory.child (outputName mode)))), j) := by
    simp only [Mode.all, List.mapM_cons, List.mapM_nil, Action.run_bind,
      h.checkDocument free legal]
    rfl
  rw [Files.checkDocuments, Action.run_bind, found]
  show (Except.ok _, j) = _
  rw [List.filterMap_map, ← List.filterMap_eq_map, ← List.filterMap_eq_filter,
    List.filterMap_filterMap]
  congr 3
  funext mode
  by_cases same : (docs.get mode).text = (other.get mode).text <;> simp [same, Option.guard]

/-- **A check sees what was not written.** Let the drafts be apart wherever the path leads, and let
a pair be written. Then a check of another pair reports as out of date exactly the documents
that list other entries than the written ones, surrogate pairs counting as the characters that they
stand for; the synchronous one first, and nothing else. Where both documents hold no surrogates
these are the documents that differ as maps. A check of the same pair reports nothing. -/
theorem check_written {docs : Documents} {directory : Path} {j after : Journal} {paths : List Path}
    (apart : ∀ goal, j.tree.Leads directory goal → Apart j.tree directory goal)
    (written : (writeDocuments docs directory).run j = (.ok paths, after)) (other : Documents) :
    (∃ stale : List Mode, stale.Sublist Mode.all ∧
        (∀ mode, mode ∈ stale ↔ (docs.get mode).listed ≠ (other.get mode).listed) ∧
        (∀ mode, (docs.get mode).IsScalar → (other.get mode).IsScalar →
          (mode ∈ stale ↔ ∃ name, (docs.get mode).get? name ≠ (other.get mode).get? name)) ∧
        (checkDocuments other directory).run { tree := after.tree } =
          (.ok (stale.map fun mode => .outOfDate (directory.child (outputName mode))),
            { tree := after.tree })) ∧
      (checkDocuments docs directory).run { tree := after.tree } =
        (.ok [], { tree := after.tree }) := by
  obtain ⟨legal, goal, leads, pair⟩ := pairWritten_of_run written
  have pair := pair (apart goal leads)
  have check (other : Documents) :=
    Held.checkDocuments (j := { tree := after.tree }) pair.held rfl legal other
  have stale (mode : Mode) :
      mode ∈ Mode.all.filter (fun mode => (docs.get mode).text ≠ (other.get mode).text) ↔
        (docs.get mode).listed ≠ (other.get mode).listed := by
    rw [List.mem_filter, and_iff_right mode.mem_all, decide_eq_true_iff, ne_eq,
      Document.text_eq_iff]
  refine ⟨⟨_, List.filter_sublist, stale, fun mode scalar scalar' => ?_, check other⟩, ?_⟩
  · rw [stale, ne_eq, Document.listed_eq_iff scalar scalar', not_forall]
  · rw [check docs]
    simp

end Checking

/-- A code with line ends, beside one with a control character. -/
def lineEnds (code : String) : Documents where
  sync := NameMap.ofList [("é", { code })]
  async := NameMap.ofList [("é", { code := "\x01" })]

/-- Line ends are written as they are, and a check tells them apart. -/
theorem lineEnds_checked : ∃ paths after,
    (writeDocuments (lineEnds "a\r\nb\r") (Path.ofString "latest")).run { tree := linkedOutput } =
        (.ok paths, after) ∧
      (∃ stale : List Mode, stale.Sublist Mode.all ∧
        (∀ mode, mode ∈ stale ↔
          ((lineEnds "a\r\nb\r").get mode).listed ≠ ((lineEnds "a\nb\n").get mode).listed) ∧
        (∀ mode, ((lineEnds "a\r\nb\r").get mode).IsScalar →
          ((lineEnds "a\nb\n").get mode).IsScalar →
          (mode ∈ stale ↔ ∃ name, ((lineEnds "a\r\nb\r").get mode).get? name ≠
            ((lineEnds "a\nb\n").get mode).get? name)) ∧
        (checkDocuments (lineEnds "a\nb\n") (Path.ofString "latest")).run { tree := after.tree } =
          (.ok (stale.map fun mode =>
            .outOfDate ((Path.ofString "latest").child (outputName mode))),
            { tree := after.tree })) ∧
      (checkDocuments (lineEnds "a\r\nb\r") (Path.ofString "latest")).run { tree := after.tree } =
        (.ok [], { tree := after.tree }) := by
  have ended : ((writeDocuments (lineEnds "a\r\nb\r") (Path.ofString "latest")).run
      { tree := linkedOutput }).1 =
        .ok [Path.ofString "latest/wast.json", Path.ofString "latest/wast-async.json"] := by
    decide +kernel
  obtain ⟨after, run⟩ := Action.run_fst_iff.mp ended
  exact ⟨_, after, run, check_written (fun goal leads => (linkedOutput_apart goal leads).1) run
    (lineEnds "a\nb\n")⟩

/-- A code that spells a character by its two surrogates. -/
def halves : Documents where
  sync := NameMap.ofList [("X", { code := [.ofUnit 0xD83D, .ofUnit 0xDE00] })]
  async := NameMap.ofList [("X", { code := "(async)" })]

/-- The same with the character. -/
def whole : Documents where
  sync := NameMap.ofList [("X", { code := "😀" })]
  async := NameMap.ofList [("X", { code := "(async)" })]

/-- What a check of the pair behind its writing says. -/
def checked (t : Tree) (directory : String) : Except FileError (List Problem) :=
  ((checkDocuments pair (Path.ofString directory)).run { tree := (attempt t directory).2.tree }).1

/-- Where the drafts are not apart, a check of what was just written reports a document, or misses
both; and a check does not tell a character from its two surrogates. -/
theorem check_misled :
    (∀ t ∈ [linkedDraft, commonDraft, nullDraft], (attempt t "out").1.isOk = true ∧
      checked t "out" = .ok [.outOfDate (Path.ofString "out/wast.json")]) ∧
    ((attempt linkedWay "wast-async.json/..").1.isOk = true ∧
      checked linkedWay "wast-async.json/.." = .ok (Mode.all.map fun mode =>
        .missing ((Path.ofString "wast-async.json/..").child (outputName mode)))) ∧
    ((writeDocuments halves (Path.ofString "latest")).run { tree := linkedOutput }).1.isOk = true ∧
      halves.sync.get? "X" ≠ whole.sync.get? "X" ∧
      ((checkDocuments whole (Path.ofString "latest")).run { tree := ((writeDocuments halves
        (Path.ofString "latest")).run { tree := linkedOutput }).2.tree }).1 = .ok [] := by
  refine ⟨?_, ?_, ?_, ?_, ?_⟩
  · intro t mem
    simp only [List.mem_cons, List.not_mem_nil, or_false] at mem
    rcases mem with rfl | rfl | rfl <;> decide +kernel
  all_goals decide +kernel

end HostGlue.Cli
