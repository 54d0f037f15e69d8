import HostGlue.Document.Generation
import HostGlue.Proofs.Marshal.Rendered

/-!
# Documents can be generated

The pairing rule is all that generation needs: inputs that keep it have a walk, a walk has a plan,
and every function with a plan has a text. The names of a document come from the opcodes and the
fragments alone, so the documents of both modes are named alike and the last check never fails.
-/

namespace HostGlue

open Interface Machine Marshal

/-! ## Names -/

/-- The names in the order in which they first come. -/
def joinNames (names more : List Text) : List Text :=
  more.foldl (fun names name => if name ∈ names then names else names ++ [name]) names

theorem mem_joinNames {names more : List Text} {name : Text} :
    name ∈ joinNames names more ↔ name ∈ names ∨ name ∈ more := by
  induction more generalizing names with
  | nil => simp [joinNames]
  | cons first rest ih =>
      show name ∈ joinNames (if first ∈ names then names else names ++ [first]) rest ↔ _
      rw [ih, List.mem_cons, ← or_assoc]
      refine or_congr_left ?_
      split
      · next known => exact ⟨.inl, fun h => h.elim id fun same => same ▸ known⟩
      · simp

theorem NameMap.names_insertAll {α : Type} (m : NameMap α) (l : List (Text × α)) :
    (m.insertAll l).names = joinNames m.names (l.map (·.1)) := by
  induction l generalizing m with
  | nil => rfl
  | cons entry rest ih =>
      show ((m.insert entry.1 entry.2).insertAll rest).names = _
      rw [ih, NameMap.names_insert]
      rfl

theorem NameMap.sameNames_of_eq {α : Type} {a b : NameMap α} (h : a.names = b.names) :
    NameMap.sameNames a b = true := by
  simp [NameMap.sameNames, h]

/-- Merging adds the names of the fragments. -/
theorem Document.names_merge (doc : Document) (fragments : Fragments) :
    (doc.merge fragments).names = joinNames doc.names (fragments.sorted.map (·.1)) := by
  rw [Document.merge, NameMap.names_insertAll, List.map_map]
  rfl

/-! ## Functions -/

section Compiling

variable {mode : Mode} {ctx : Context} {entries : List (String × Descriptor)}

/-- The functions of the opcodes add their names. -/
theorem names_of_compileOpcodes {doc compiled : Document}
    (h : compileOpcodes mode ctx doc entries = .ok compiled) :
    compiled.names = joinNames doc.names (entries.map fun e => ↑e.1) := by
  induction entries generalizing doc with
  | nil =>
      cases h
      rfl
  | cons entry rest ih =>
      obtain ⟨artifact, -, all⟩ := except_bind_eq_ok.mp h
      rw [ih all, NameMap.names_insert]
      rfl

/-- A document is generated exactly if every opcode has a function. -/
theorem exists_compileOpcodes_iff {doc : Document} :
    (∃ compiled, compileOpcodes mode ctx doc entries = .ok compiled) ↔
      ∀ e ∈ entries, ∃ artifact, compileFunction e.1 e.2 mode ctx = .ok artifact := by
  induction entries generalizing doc with
  | nil => exact iff_of_true ⟨doc, rfl⟩ nofun
  | cons entry rest ih =>
      rw [List.forall_mem_cons]
      constructor
      · rintro ⟨compiled, h⟩
        obtain ⟨artifact, one, all⟩ := except_bind_eq_ok.mp h
        exact ⟨⟨artifact, one⟩, ih.mp ⟨compiled, all⟩⟩
      · rintro ⟨⟨artifact, one⟩, others⟩
        obtain ⟨compiled, all⟩ := ih.mpr others
        exact ⟨compiled, except_bind_eq_ok.mpr ⟨artifact, one, all⟩⟩

end Compiling

section Artifacts

variable {ctx : Context} (hw : ctx.wordBytes ≠ 0)

include hw

/-- A descriptor that keeps the pairing rule has an artifact. -/
theorem exists_artifact (opcode : String) {d : Descriptor} (mode : Mode)
    (paired : checkPairing d.inputs = .ok ()) :
    ∃ artifact, compileFunction opcode d mode ctx = .ok artifact := by
  obtain ⟨e, q, walk⟩ : ∃ e q, Walk opcode ctx {} d.inputs e q :=
    exists_walk hw (paired_of_checkPairing paired)
  obtain ⟨-, -, artifact, -, -, -, compiled, -⟩ := compileFunction_shows (vocabulary_any ctx)
    trivial trivial hw (planOperands_eq_ok_iff.mpr ⟨e, q, walk, rfl⟩) mode
  exact ⟨artifact, compiled⟩

end Artifacts

/-! ## Documents -/

section Documents

variable {m : Manifest} {ctx : Context} {fragments : Fragments} {hostModule : Option Text}

/-- The names come from the opcodes and the fragments, so the check of names passes. -/
theorem generateDocuments_of_compiled {sync async : Document}
    (hsync : generateDocument m .sync (ctx.withHostModule (chooseHostModule m hostModule)) =
      .ok sync)
    (hasync : generateDocument m .async (ctx.withHostModule (chooseHostModule m hostModule)) =
      .ok async) :
    generateDocuments m fragments ctx hostModule =
        .ok ⟨sync.merge fragments, async.merge fragments⟩ ∧
      (sync.merge fragments).names = (async.merge fragments).names := by
  have same : (sync.merge fragments).names = (async.merge fragments).names := by
    rw [Document.names_merge, Document.names_merge, names_of_compileOpcodes hsync,
      names_of_compileOpcodes hasync]
  refine ⟨?_, same⟩
  simp only [generateDocuments, except_bind_eq_ok, except_mapError_eq_ok]
  refine ⟨sync, hsync, async, hasync, ?_⟩
  rw [if_pos (NameMap.sameNames_of_eq same)]
  rfl

/-- Documents are generated exactly if every opcode has a function in both modes. -/
theorem exists_generateDocuments_iff :
    (∃ docs, generateDocuments m fragments ctx hostModule = .ok docs) ↔
      ∀ mode, ∀ e ∈ m.opcodes, ∃ artifact, compileFunction e.1 e.2 mode
        (ctx.withHostModule (chooseHostModule m hostModule)) = .ok artifact := by
  constructor
  · rintro ⟨docs, h⟩ mode
    simp only [generateDocuments, except_bind_eq_ok, except_mapError_eq_ok] at h
    obtain ⟨sync, hsync, async, hasync, -⟩ := h
    cases mode with
    | sync => exact exists_compileOpcodes_iff.mp ⟨sync, hsync⟩
    | async => exact exists_compileOpcodes_iff.mp ⟨async, hasync⟩
  · intro functions
    obtain ⟨sync, hsync⟩ := exists_compileOpcodes_iff.mpr (functions .sync)
    obtain ⟨async, hasync⟩ := exists_compileOpcodes_iff.mpr (functions .async)
    exact ⟨_, (generateDocuments_of_compiled hsync hasync).1⟩

end Documents

/-- **Generation does not fail.** From opcodes that keep the pairing rule both documents are
generated, whatever the fragments are, and they have the same names. -/
theorem exists_documents {m : Manifest} {ctx : Context} (hw : ctx.wordBytes ≠ 0)
    (paired : ∀ e ∈ m.opcodes, checkPairing e.2.inputs = .ok ()) (fragments : Fragments)
    (hostModule : Option Text) :
    ∃ docs, generateDocuments m fragments ctx hostModule = .ok docs ∧
      docs.sync.names = docs.async.names := by
  have importing : (ctx.withHostModule (chooseHostModule m hostModule)).wordBytes ≠ 0 := hw
  obtain ⟨sync, hsync⟩ := exists_compileOpcodes_iff.mpr fun e mem =>
    exists_artifact importing e.1 .sync (paired e mem)
  obtain ⟨async, hasync⟩ := exists_compileOpcodes_iff.mpr fun e mem =>
    exists_artifact importing e.1 .async (paired e mem)
  exact ⟨_, generateDocuments_of_compiled hsync hasync⟩

end HostGlue
