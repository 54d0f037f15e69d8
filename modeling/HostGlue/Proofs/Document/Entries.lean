import HostGlue.Proofs.Document.Canonical
import HostGlue.Proofs.Document.Generation
import HostGlue.Proofs.Interface.Accepted
import HostGlue.Proofs.Json.Distinct
import HostGlue.Proofs.Marshal.Continuation

/-!
# The entries of a document

Adding functions and merging fragments are both `insertAll`, so one law about it says what a
document holds under every name and in which order the names stand: the names that were there, then
the new ones. Fragments are merged last and therefore win over functions.

The opcodes of a manifest have distinct names if the members of its object do, and only then does
every opcode keep its own function: of two entries with one name the later would count.
-/

namespace HostGlue

open Interface Machine Marshal Wat

/-! ## Entries that are added -/

namespace NameMap

variable {α : Type}

/-- Of two entries with one name the later counts, and a name that is not added keeps its value. -/
theorem get?_insertAll (m : NameMap α) (l : List (Text × α)) (key : Text) :
    (m.insertAll l).get? key = (l.reverse.lookup key).or (m.get? key) := by
  induction l generalizing m with
  | nil => rfl
  | cons entry rest ih =>
      obtain ⟨name, v⟩ := entry
      show ((m.insert name v).insertAll rest).get? key = _
      rw [ih, get?_insert, List.reverse_cons, List.lookup_append, Option.or_assoc]
      congr 1
      by_cases same : key = name
      · subst same
        simp
      · rw [if_neg same, lookup_cons_ne same]
        rfl

theorem get?_insertAll_of_nodup (m : NameMap α) {l : List (Text × α)}
    (nodup : (l.map (·.1)).Nodup) (key : Text) :
    (m.insertAll l).get? key = (l.lookup key).or (m.get? key) := by
  rw [get?_insertAll, lookup_of_perm nodup l.reverse_perm.symm]

theorem lookup_sorted (m : NameMap α) (key : Text) : m.sorted.lookup key = m.get? key :=
  lookup_of_perm m.sorted_nodup (List.mergeSort_perm _ _) key

theorem mem_names_iff {m : NameMap α} {name : Text} : name ∈ m.names ↔ m.get? name ≠ none := by
  rw [names, get?, ← not_iff_not, not_not]
  constructor
  · exact lookup_eq_none_of_not_mem
  · rintro absent mem
    obtain ⟨⟨name, v⟩, found, rfl⟩ := List.mem_map.mp mem
    rw [(mem_iff_lookup m.nodup).mp found] at absent
    cases absent

end NameMap

/-- Of distinct names those are new that were not there. -/
theorem joinNames_of_nodup (names : List Text) {more : List Text} (nodup : more.Nodup) :
    joinNames names more = names ++ more.filter (· ∉ names) := by
  induction more generalizing names with
  | nil => exact (List.append_nil names).symm
  | cons name rest ih =>
      obtain ⟨fresh, nodup⟩ := List.nodup_cons.mp nodup
      show joinNames (if name ∈ names then names else names ++ [name]) rest = _
      rw [ih _ nodup]
      split
      · next known => simp [known]
      · next new =>
          have others : rest.filter (· ∉ names ++ [name]) = rest.filter (· ∉ names) := by
            refine List.filter_congr fun other mem => ?_
            have differs : other ≠ name := fun same => fresh (same ▸ mem)
            simp [differs]
          rw [others]
          simp [new]

/-! ## Fragments -/

section Fragments

variable (fragments : Fragments)

/-- A fragment stands under its name, and without one what the document had. -/
theorem Document.get?_merge (doc : Document) (name : Text) :
    (doc.merge fragments).get? name =
      ((fragments.get? name).map fun code => { code }).or (doc.get? name) := by
  have nodup : ((fragments.sorted.map fun f => (f.1, ({ code := f.2 } : Artifact))).map
      (·.1)).Nodup := by
    rw [List.map_map]
    exact fragments.sorted_nodup
  rw [Document.merge, NameMap.get?_insertAll_of_nodup _ nodup, lookup_map_snd fun code : Text =>
    ({ code } : Artifact), NameMap.lookup_sorted]

/-- The names of fragments that are none of the given names, in the order of their code points. -/
def newNames (names : List Text) : List Text :=
  (fragments.sorted.map (·.1)).filter (· ∉ names)

theorem newNames_lt (names : List Text) : (newNames fragments names).Pairwise (· < ·) :=
  fragments.sorted_lt.filter _

theorem mem_newNames {names : List Text} {name : Text} :
    name ∈ newNames fragments names ↔ fragments.get? name ≠ none ∧ name ∉ names := by
  have sorted : name ∈ fragments.sorted.map (·.1) ↔ name ∈ fragments.names :=
    ((List.mergeSort_perm _ _).map _).mem_iff
  rw [newNames, List.mem_filter, sorted, NameMap.mem_names_iff, decide_eq_true_eq]

end Fragments

/-! ## Functions -/

section Functions

variable {mode : Mode} {ctx : Context} {entries : List (String × Descriptor)}

/-- The function of the opcode that a name is, if it is one. -/
def functionOf (entries : List (String × Descriptor)) (mode : Mode) (ctx : Context) (name : Text) :
    Option Artifact :=
  name.string?.bind fun opcode =>
    (entries.lookup opcode).bind fun d => (compileFunction opcode d mode ctx).toOption

theorem functionOf_opcode {opcode : String} {d : Descriptor} {artifact : Artifact}
    (found : entries.lookup opcode = some d)
    (compiled : compileFunction opcode d mode ctx = .ok artifact) :
    functionOf entries mode ctx opcode = some artifact := by
  simp [functionOf, found, compiled, Except.toOption]

theorem functionOf_cons_ne {opcode : String} {d : Descriptor} {name : Text}
    (ne : name ≠ opcode) :
    functionOf ((opcode, d) :: entries) mode ctx name = functionOf entries mode ctx name := by
  unfold functionOf
  cases h : name.string? with
  | none => rfl
  | some other =>
      have differs : other ≠ opcode := by
        rintro rfl
        exact ne (Text.string?_eq_some.mp h)
      rw [Option.bind_some, Option.bind_some, lookup_cons_ne differs]

/-- Under an opcode a generated document holds its function, and what it held otherwise. -/
theorem get?_of_compileOpcodes {doc compiled : Document}
    (h : compileOpcodes mode ctx doc entries = .ok compiled) (nodup : (entries.map (·.1)).Nodup)
    (name : Text) :
    compiled.get? name = (functionOf entries mode ctx name).or (doc.get? name) := by
  induction entries generalizing doc with
  | nil =>
      cases h
      cases name.string? <;> simp [functionOf]
  | cons entry rest ih =>
      obtain ⟨opcode, d⟩ := entry
      obtain ⟨fresh, nodup⟩ := List.nodup_cons.mp nodup
      obtain ⟨artifact, one, all⟩ := except_bind_eq_ok.mp h
      rw [ih all nodup, NameMap.get?_insert]
      by_cases same : name = opcode
      · subst same
        have absent : functionOf rest mode ctx opcode = none := by
          simp [functionOf, lookup_eq_none_of_not_mem fresh]
        rw [absent, functionOf_opcode List.lookup_cons_self one, if_pos rfl]
        rfl
      · rw [functionOf_cons_ne same, if_neg same]

/-- The function's texts tell the modes apart exactly if the descriptor is asynchronous. -/
theorem texts_agree_iff (hw : ctx.wordBytes ≠ 0) {opcode : String} {d : Descriptor}
    (paired : checkPairing d.inputs = .ok ()) {sync async : Artifact}
    (hsync : compileFunction opcode d .sync ctx = .ok sync)
    (hasync : compileFunction opcode d .async ctx = .ok async) :
    (sync.code = async.code ↔ d.isAsync = false) ∧
      (sync.imports = async.imports ↔ d.isAsync = false) := by
  cases h : d.isAsync with
  | false =>
      rw [compileFunction_of_not_isAsync h, hsync] at hasync
      cases hasync
      simp
  | true =>
      obtain ⟨e, q, walk⟩ : ∃ e q, Walk opcode ctx {} d.inputs e q :=
        exists_walk hw (paired_of_checkPairing paired)
      have plan := planOperands_eq_ok_iff.mpr ⟨e, q, walk, rfl⟩
      obtain ⟨code, imports⟩ := texts_differ hw plan h hsync hasync
      simp [code, imports]

end Functions

/-- The opcodes as names in a document. -/
def Interface.Manifest.keys (m : Manifest) : List Text := m.opcodes.map fun e => ↑e.1

theorem nodup_keys_iff {m : Manifest} : m.keys.Nodup ↔ m.names.Nodup := by
  rw [Manifest.keys, Manifest.names, List.Nodup, List.Nodup, List.pairwise_map, List.pairwise_map]
  simp

section Documents

variable {m : Manifest} {fragments : Fragments} {ctx : Context} {hostModule : Option Text}
variable {docs : Documents}

/-- Each document is the generated one of its mode under the fragments. -/
theorem get_eq_merge (h : generateDocuments m fragments ctx hostModule = .ok docs) (mode : Mode) :
    ∃ doc, generateDocument m mode (ctx.withHostModule (chooseHostModule m hostModule)) = .ok doc ∧
      docs.get mode = doc.merge fragments := by
  simp only [generateDocuments, except_bind_eq_ok, except_mapError_eq_ok] at h
  obtain ⟨sync, hsync, async, hasync, h⟩ := h
  split at h
  · cases h
    cases mode with
    | sync => exact ⟨sync, hsync, rfl⟩
    | async => exact ⟨async, hasync, rfl⟩
  · cases h

/-- **What a document holds under a name**: the fragment, or else the function of the opcode. -/
theorem get?_of_generateDocuments (h : generateDocuments m fragments ctx hostModule = .ok docs)
    (nodup : m.names.Nodup) (mode : Mode) (name : Text) :
    (docs.get mode).get? name = ((fragments.get? name).map fun code => { code }).or
      (functionOf m.opcodes mode (ctx.withHostModule (chooseHostModule m hostModule)) name) := by
  obtain ⟨doc, generated, merged⟩ := get_eq_merge h mode
  rw [merged, Document.get?_merge, get?_of_compileOpcodes generated nodup]
  exact congrArg _ (Option.or_none)

theorem names_of_generateDocuments (h : generateDocuments m fragments ctx hostModule = .ok docs)
    (nodup : m.names.Nodup) (mode : Mode) :
    (docs.get mode).names = m.keys ++ newNames fragments m.keys := by
  obtain ⟨doc, generated, merged⟩ := get_eq_merge h mode
  have listed : doc.names = m.keys := by
    refine (names_of_compileOpcodes generated).trans
      ((joinNames_of_nodup [] (nodup_keys_iff.mpr nodup)).trans ?_)
    simp
  rw [merged, Document.names_merge, listed, joinNames_of_nodup _ fragments.sorted_nodup]
  rfl

end Documents

/-- The module that functions are imported from: the given one if it is not empty. -/
theorem chooseHostModule_eq (m : Manifest) (given : Option Text) :
    chooseHostModule m given = (given.filter (· ≠ [])).getD m.hostModule := by
  cases given with
  | none => rfl
  | some module => by_cases h : module = [] <;> simp [chooseHostModule, Option.filter, h]

/-- The names of a manifest's opcodes are distinct if the names in its objects are. -/
theorem nodup_names {source : String} {data : Json.Value} {m : Manifest} (distinct : data.Distinct)
    (h : Manifest.ofJson source data = .ok m) : m.names.Nodup := by
  obtain ⟨members, rfl, -, -, inner, found, describes⟩ := manifest_ofJson_eq_ok_iff.mp h
  obtain ⟨nodup, below⟩ := Json.distinct_obj_iff.mp distinct
  obtain ⟨nodupInner, -⟩ :=
    Json.distinct_obj_iff.mp (below _ ((mem_iff_lookup nodup).mpr found))
  have keys : inner.map (·.1) = m.keys := by
    rw [Manifest.keys, ← List.forall₂_eq_eq_eq, List.forall₂_map_left_iff,
      List.forall₂_map_right_iff]
    exact describes.imp fun _ _ entry => entry.1
  exact nodup_keys_iff.mp (keys ▸ nodupInner)

/-- **What the documents hold.** From a manifest whose objects have distinct names both documents
are generated, and both list the opcodes in their order and then the names of further fragments in
the order of their code points. A fragment stands under its name in both, without an import. Every
other opcode has the function of its descriptor and the mode, importing from the given module or
else the manifest's; its texts agree in both modes if the descriptor is not asynchronous, and differ
if it is. -/
theorem documents_hold {source : String} {data : Json.Value} {m : Manifest} {ctx : Context}
    (distinct : data.Distinct) (accepted : Manifest.ofJson source data = .ok m)
    (hw : ctx.wordBytes ≠ 0) (fragments : Fragments) (hostModule : Option Text) :
    ∃ docs, generateDocuments m fragments ctx hostModule = .ok docs ∧
      (∃ further : List Text, further.Pairwise (· < ·) ∧
        (∀ name, name ∈ further ↔ fragments.get? name ≠ none ∧ name ∉ m.keys) ∧
        ∀ mode, (docs.get mode).names = m.keys ++ further) ∧
      (∀ mode name code, fragments.get? name = some code →
        (docs.get mode).get? name = some { code, imports := none }) ∧
      ∀ name d, (name, d) ∈ m.opcodes → fragments.get? ↑name = none →
        ∃ sync async,
          compileFunction name d .sync
            (ctx.withHostModule ((hostModule.filter (· ≠ [])).getD m.hostModule)) = .ok sync ∧
          compileFunction name d .async
            (ctx.withHostModule ((hostModule.filter (· ≠ [])).getD m.hostModule)) = .ok async ∧
          docs.sync.get? ↑name = some sync ∧ docs.async.get? ↑name = some async ∧
          (sync.code = async.code ↔ d.isAsync = false) ∧
          (sync.imports = async.imports ↔ d.isAsync = false) := by
  have nodup := nodup_names distinct accepted
  have paired (e) (mem : e ∈ m.opcodes) : checkPairing e.2.inputs = .ok () :=
    (manifest_accepted accepted mem).pairing
  rw [← chooseHostModule_eq]
  have importing : (ctx.withHostModule (chooseHostModule m hostModule)).wordBytes ≠ 0 := hw
  obtain ⟨docs, generated, -⟩ := exists_documents hw paired fragments hostModule
  have held := get?_of_generateDocuments generated nodup
  refine ⟨docs, generated, ⟨newNames fragments m.keys, newNames_lt _ _, fun _ => mem_newNames _,
    names_of_generateDocuments generated nodup⟩, ?_, ?_⟩
  · intro mode name code fragment
    rw [held, fragment]
    rfl
  · intro name d mem plain
    obtain ⟨sync, hsync⟩ := exists_artifact importing name .sync (paired _ mem)
    obtain ⟨async, hasync⟩ := exists_artifact importing name .async (paired _ mem)
    have found : m.opcodes.lookup name = some d := (mem_iff_lookup nodup).mp mem
    refine ⟨sync, async, hsync, hasync, ?_, ?_,
      texts_agree_iff importing (paired _ mem) hsync hasync⟩
    · refine (held .sync name).trans ?_
      rw [plain, functionOf_opcode found hsync]
      rfl
    · refine (held .async name).trans ?_
      rw [plain, functionOf_opcode found hasync]
      rfl

/-- A query that is answered later and one that is answered at once. -/
def queries : Json.Value :=
  .obj [("schema_version", .int 1), ("opcodes", .obj [
    ("BALANCE", .obj [("name", .str "getBalance"), ("async", .bool true),
      ("input", .arr [.str "address"]), ("output", .arr [.str "i128"])]),
    ("GAS", .obj [("name", .str "getGasLeft"), ("input", .arr []), ("output", .arr [.str "i64"])])])]

def queriesManifest : Manifest where
  hostModule := "ethereum"
  opcodes := [
    ("BALANCE", { name := "getBalance", isAsync := true, inputs := [.address], outputs := [.i128] }),
    ("GAS", { name := "getGasLeft", outputs := [.i64] })]

/-- The answer at once is written by hand. -/
def handWritten : Fragments := .ofList [("GAS", "(func $GAS)")]

theorem queries_held : ∃ docs sync async,
    generateDocuments queriesManifest handWritten {} none = .ok docs ∧
      docs.sync.get? "GAS" = some { code := "(func $GAS)" } ∧
      docs.async.get? "GAS" = some { code := "(func $GAS)" } ∧
      docs.sync.get? "BALANCE" = some sync ∧ docs.async.get? "BALANCE" = some async ∧
      sync.code ≠ async.code ∧ sync.imports ≠ async.imports := by
  have distinct : queries.Distinct := by
    simp [queries, Json.Value.Distinct, Json.membersDistinct, Json.itemsDistinct]
  have accepted : Manifest.ofJson "m.json" queries = .ok queriesManifest := rfl
  obtain ⟨docs, generated, -, fragment, function⟩ :=
    documents_hold distinct accepted (by decide : ({} : Context).wordBytes ≠ 0) handWritten none
  obtain ⟨sync, async, -, -, hsync, hasync, code, imports⟩ :=
    function "BALANCE" _ (List.mem_cons_self) rfl
  refine ⟨docs, sync, async, generated, fragment .sync _ _ rfl, fragment .async _ _ rfl, hsync,
    hasync, ?_, ?_⟩
  · rw [Ne, code]
    decide
  · rw [Ne, imports]
    decide

end HostGlue
