import HostGlue.Proofs.Cli.Regeneration
import HostGlue.Proofs.Document.Entries

/-!
# From fragment files to the documents on disk

A fragment passes through five hands: it is read as text, named after its file, merged over the
document, written as JSON and read back. Four of them keep every character. The first does not: a
file is read with unified line ends, so a carriage return comes back as a line feed.
`fragments_read_back` says exactly what comes back, and `carriage_return_lost` is a file that does
not come back as it is.
-/

namespace HostGlue

open Files

namespace Files

variable {t : Tree} {j : Journal} {directory : Path} {location : Location}

/-! ## Loading -/

/-- A fragment's file has its name with the ending behind it. -/
theorem fragmentName?_eq_some_iff {file name : String} :
    fragmentName? file = some name ↔ file = name ++ ".wast" := by
  have take (front : List Char) :
      (front ++ fragmentEnding).take ((front ++ fragmentEnding).length - fragmentEnding.length) =
        front := by
    rw [List.length_append, Nat.add_sub_cancel, List.take_left]
  unfold fragmentName?
  dsimp only
  constructor
  · intro h
    split at h
    · next ends =>
        obtain ⟨front, split⟩ := List.isSuffixOf_iff_suffix.mp ends
        rw [← split, take] at h
        cases h
        apply String.toList_injective
        simp [← split, fragmentEnding]
    · cases h
  · rintro rfl
    have split : (name ++ ".wast").toList = name.toList ++ fragmentEnding := by
      simp [fragmentEnding]
    rw [split, if_pos (List.isSuffixOf_iff_suffix.mpr (List.suffix_append _ _)), take]
    simp

theorem fragment_ordinary (name : String) : name ++ ".wast" ≠ ".." := by
  intro same
  cases fragmentName?_eq_some_iff.mpr same.symm

/-- The fragments that are read are the texts of the files, each under its name. -/
theorem run_readFragments_ok {text : String → String} {files : List String}
    (reads : ∀ file ∈ files, ∀ name, fragmentName? file = some name →
      (Action.readText (directory.child file)).run j = (.ok (text name), j)) :
    (readFragments directory files).run j = (.ok ((files.filterMap fragmentName?).map
      fun name => (Text.ofString name, Text.ofString (text name))), j) := by
  induction files with
  | nil => rfl
  | cons file rest ih =>
      obtain ⟨first, others⟩ := List.forall_mem_cons.mp reads
      rw [readFragments]
      cases named : fragmentName? file with
      | none =>
          rw [List.filterMap_cons_none named]
          exact ih others
      | some name =>
          rw [List.filterMap_cons_some named]
          dsimp only
          rw [Action.run_bind, first name named]
          dsimp only
          rw [Action.run_bind, ih others]
          rfl

/-- Names that are added with values of their own have these values, however often they come. -/
theorem get?_ofList_map {α : Type} (f : String → α) (names : List String) (key : Text) :
    (NameMap.ofList (names.map fun name => (Text.ofString name, f name))).get? key =
      key.string?.bind fun name => if name ∈ names then some (f name) else none := by
  have look (names : List String) :
      (names.map fun name => (Text.ofString name, f name)).lookup key =
        key.string?.bind fun name => if name ∈ names then some (f name) else none := by
    induction names with
    | nil => cases key.string? <;> rfl
    | cons name rest ih =>
        by_cases same : key = name
        · subst same
          simp
        · rw [List.map_cons, lookup_cons_ne same, ih]
          cases h : key.string? with
          | none => rfl
          | some other =>
              have differs : other ≠ name := by
                rintro rfl
                exact same (Text.string?_eq_some.mp h)
              simp [differs]
  rw [NameMap.ofList, NameMap.get?_insertAll, ← List.map_reverse, look]
  simp [NameMap.get?, NameMap.empty]

/-- A file that a path into the directory leads to is listed there. -/
theorem entry_of_holdsText (reached : t.Reaches directory location) {name content : String}
    (ordinary : name ≠ "..") (held : t.HoldsText (directory.child name) content) :
    t.entry (location ++ [name]) ≠ none := by
  obtain ⟨-, bytes, found, -⟩ := held
  rw [Tree.find?] at found
  split at found
  · next place located =>
      obtain ⟨goal, reached', here⟩ := Tree.reaches_of_locate ordinary located
      obtain rfl := reached.leads.unique reached'.leads
      rcases here with rfl | ⟨target, link⟩
      · obtain ⟨number, file, -⟩ := Tree.lookup_eq_file_iff.mp found
        simp [file]
      · simp [link]
  · cases found

/-- **The fragments are the texts of the files.** Under a name there is a fragment if its file can
be read, and the fragment is what is read. -/
theorem exists_fragments (reached : t.Reaches directory location)
    (legal : directory.hasNull = false)
    (legible : ∀ name, t.entry (location ++ [name ++ ".wast"]) ≠ none →
      ∃ content, t.HoldsText (directory.child (name ++ ".wast")) content) :
    ∃ fragments,
      (loadFragments directory).run { tree := t } = (.ok (.ok fragments), { tree := t }) ∧
      ∀ key : Text, fragments.get? key = key.string?.bind fun name =>
        (t.readText (directory.child (name ++ ".wast"))).toOption.map Text.ofString := by
  let text (name : String) : String :=
    (t.readText (directory.child (name ++ ".wast"))).toOption.getD ""
  have readable {name content : String}
      (held : t.HoldsText (directory.child (name ++ ".wast")) content) :
      t.readText (directory.child (name ++ ".wast")) = .ok (text name) := by
    have read := Tree.readText_eq_ok_iff.mpr ⟨content, held, rfl⟩
    simp [text, read, Except.toOption]
  have reads : ∀ file ∈ t.namesIn location, ∀ name, fragmentName? file = some name →
      (Action.readText (directory.child file)).run { tree := t } =
        (.ok (text name), { tree := t }) := by
    intro file mem name named
    obtain rfl := fragmentName?_eq_some_iff.mp named
    obtain ⟨content, held⟩ := legible name (Tree.mem_namesIn_iff.mp mem)
    obtain ⟨j', read⟩ := Action.run_fst_iff.mp (readable held)
    have same := Action.run_readText_ok (j := { tree := t }) rfl held
    rw [same] at read ⊢
    rw [Except.ok.inj (Prod.mk.inj read).1]
  refine ⟨NameMap.ofList (((t.namesIn location).filterMap fragmentName?).map
    fun name => (Text.ofString name, Text.ofString (text name))), ?_, fun key => ?_⟩
  · have listed : (Action.namesAt directory).run { tree := t } =
        (.ok (t.namesIn location), { tree := t }) := by
      rw [Action.namesAt, Action.run_ask_faultless _ rfl (by simp [legal]),
        Tree.namesAt_eq_ok_iff.mpr ⟨location, reached, rfl⟩]
      rfl
    rw [loadFragments, Action.run_bind, Action.run_isDirectory_ok rfl legal reached]
    dsimp only
    rw [if_pos rfl, Action.run_tryCatch, Action.run_bind, listed]
    dsimp only
    rw [Action.run_bind, run_readFragments_ok reads]
    rfl
  · rw [get?_ofList_map fun name => Text.ofString (text name)]
    refine Option.bind_congr fun name _ => ?_
    have known : name ∈ (t.namesIn location).filterMap fragmentName? ↔
        t.entry (location ++ [name ++ ".wast"]) ≠ none := by
      simp [fragmentName?_eq_some_iff, ← Tree.mem_namesIn_iff]
    split
    · next mem =>
        obtain ⟨content, held⟩ := legible name (known.mp mem)
        rw [readable held]
        rfl
    · next new =>
        cases read : t.readText (directory.child (name ++ ".wast")) with
        | error e => rfl
        | ok content =>
            obtain ⟨content, held, -⟩ := Tree.readText_eq_ok_iff.mp read
            exact absurd (known.mpr (entry_of_holdsText reached (fragment_ordinary name) held)) new

end Files

/-! ## Reading back -/

open Json

namespace Document

variable {doc : Document}

/-- The names in the document have no surrogates. -/
def ScalarNames (doc : Document) : Prop := ∀ name, doc.get? name ≠ none → name.IsScalar

/-- A document whose names have no surrogates lists the names as they are. -/
theorem ScalarNames.listed_eq (scalar : doc.ScalarNames) :
    doc.listed = doc.sorted.map fun e => (e.1, e.2.joined) := by
  refine List.map_congr_left fun e mem => ?_
  have known : e.1.IsScalar := scalar e.1 (by rw [NameMap.mem_sorted_iff.mp mem]; simp)
  rw [joined_of_isScalar known]

/-- The members of the document's value are its entries, surrogates joined. -/
theorem ScalarNames.lookup_listed (scalar : doc.ScalarNames) (name : Text) :
    (doc.listed.map fun e => (e.1, e.2.value)).lookup name =
      (doc.get? name).map fun a => a.joined.value := by
  rw [scalar.listed_eq, List.map_map]
  exact (lookup_map_snd (fun a : Artifact => a.joined.value) _ _).trans
    (congrArg _ (NameMap.lookup_sorted _ _))

theorem ScalarNames.read_text (scalar : doc.ScalarNames) {rule : ClosingRule}
    (faithful : Faithful rule) : Json.read rule doc.text = .ok doc.value := by
  refine Document.read_text faithful (faithful _ ?_)
  rw [scalar.listed_eq, List.map_map, List.map_map]
  exact doc.sorted_nodup

end Document

namespace Cli

open Interface Machine

/-- A document that was written is read back as its entries. -/
theorem Held.read_back {docs : Documents} {output : Path} {after : Tree}
    (held : Held after output docs) (legal : output.hasNull = false) {mode : Mode}
    (scalar : (docs.get mode).ScalarNames) :
    ∃ text members, after.readText (output.child (outputName mode)) = .ok text ∧
      (∀ rule ∈ [asWritten, lastWins, distinct], Json.read rule text = .ok (.obj members)) ∧
      ∀ name, members.lookup name = ((docs.get mode).get? name).map fun a => a.joined.value := by
  have holds : after.HoldsText (output.child (outputName mode)) (docs.get mode).text :=
    ⟨Path.hasNull_child.mpr ⟨legal, by cases mode <;> decide⟩, _, held mode,
      Text.Utf8.decode_encode _⟩
  exact ⟨_, _, Tree.readText_eq_ok_iff.mpr ⟨_, holds, (asRead_text _).symm⟩,
    fun _ known => scalar.read_text (faithful_of_mem known), scalar.lookup_listed⟩

/-- The names in the documents are those of opcodes and fragments. -/
theorem scalarNames_of_generateDocuments {m : Manifest} {fragments : Fragments} {ctx : Context}
    {hostModule : Option Text} {docs : Documents}
    (generated : generateDocuments m fragments ctx hostModule = .ok docs)
    (scalar : ∀ name, fragments.get? name ≠ none → name.IsScalar) (mode : Mode) :
    (docs.get mode).ScalarNames := by
  intro name held
  obtain ⟨doc, compiled, merged⟩ := get_eq_merge generated mode
  rw [merged, Document.get?_merge] at held
  cases fragment : fragments.get? name with
  | some code => exact scalar name (by simp [fragment])
  | none =>
      rw [fragment, Option.map_none, Option.none_or, ← NameMap.mem_names_iff,
        names_of_compileOpcodes compiled, mem_joinNames] at held
      rcases held with none | opcode
      · cases none
      · obtain ⟨e, -, rfl⟩ := List.mem_map.mp opcode
        exact Text.isScalar_ofString _

/-- Fragments that were loaded are named after files. -/
theorem scalar_of_loaded {fragments : Fragments} {read : String → Option Text}
    (fragment : ∀ key : Text, fragments.get? key = key.string?.bind read) (name : Text)
    (known : fragments.get? name ≠ none) : name.IsScalar := by
  rw [fragment] at known
  cases same : name.string? with
  | none => simp [same] at known
  | some file =>
      rw [Text.string?_eq_some.mp same]
      exact Text.isScalar_ofString file

/-- Under the name of a fragment file the documents hold the text of the file. -/
theorem get?_of_file {t : Tree} {directory : Path} {m : Manifest} {fragments : Fragments}
    {ctx : Context} {hostModule : Option Text} {docs : Documents} {name content : String}
    (generated : generateDocuments m fragments ctx hostModule = .ok docs)
    (fragment : ∀ key : Text, fragments.get? key = key.string?.bind fun name =>
      (t.readText (directory.child (name ++ ".wast"))).toOption.map Text.ofString)
    (held : t.HoldsText (directory.child (name ++ ".wast")) content) (mode : Mode) :
    (docs.get mode).get? ↑name = some { code := Text.ofString (Text.asRead content) } := by
  obtain ⟨doc, -, merged⟩ := get_eq_merge generated mode
  rw [merged, Document.get?_merge, fragment, Text.string?_ofString, Option.bind_some,
    Tree.readText_eq_ok_iff.mpr ⟨content, held, rfl⟩]
  rfl

/-- A fragment's text has no surrogates to join. -/
theorem value_fragment (content : String) :
    (({ code := Text.ofString content } : Artifact).joined).value =
      .obj [(↑"wast", .str content)] := by
  rw [Artifact.joined_of_isScalar ⟨Text.isScalar_ofString _, by simp⟩]
  rfl

/-- **Fragments come back as they are read.** From a directory whose fragment files hold text, the
fragments are loaded, the same ones whenever loading meets faults and still succeeds, and documents
are generated with them. Let the documents be written where the drafts are apart, which can be done
wherever nothing stands in the way. Then each file is read back as an object. Under the name of
every fragment file it has the text of the file without an import, line ends unified: the very text
exactly if that has no carriage return. Under every other name it has what is generated without
fragments. -/
theorem fragments_read_back {t : Tree} {directory : Path} {location : Location} {source : String}
    {data : Value} {m : Manifest} {ctx : Context} (reached : t.Reaches directory location)
    (legal : directory.hasNull = false)
    (legible : ∀ name, t.entry (location ++ [name ++ ".wast"]) ≠ none →
      ∃ content, t.HoldsText (directory.child (name ++ ".wast")) content)
    (accepted : Manifest.ofJson source data = .ok m) (hw : ctx.wordBytes ≠ 0)
    (hostModule : Option Text) :
    ∃ fragments docs plain,
      (loadFragments directory).run { tree := t } = (.ok (.ok fragments), { tree := t }) ∧
      (∀ j other j', j.tree = t → (loadFragments directory).run j = (.ok (.ok other), j') →
        other = fragments) ∧
      generateDocuments m fragments ctx hostModule = .ok docs ∧
      generateDocuments m .empty ctx hostModule = .ok plain ∧
      ∀ (output : Path) (j : Journal),
        (∀ goal, j.tree.Leads output goal → Apart j.tree output goal) →
        (∀ goal, j.faults = [] →
          (∀ mode, Action.Writable output goal (outputName mode) j.tree) →
          ∃ paths after, (writeDocuments docs output).run j = (.ok paths, after)) ∧
        ∀ paths after, (writeDocuments docs output).run j = (.ok paths, after) → ∀ mode,
          ∃ text members, after.tree.readText (output.child (outputName mode)) = .ok text ∧
            (∀ rule ∈ [asWritten, lastWins, distinct],
              Json.read rule text = .ok (.obj members)) ∧
            (∀ name content : String, t.HoldsText (directory.child (name ++ ".wast")) content →
              members.lookup ↑name = some (.obj [(↑"wast", .str (Text.asRead content))]) ∧
                (Text.asRead content = content ↔ '\r' ∉ content.toList)) ∧
            ∀ name : Text,
              (∀ file : String, name = file →
                t.entry (location ++ [file ++ ".wast"]) = none) →
              members.lookup name =
                ((plain.get mode).get? name).map fun a => a.joined.value := by
  have paired (e) (mem : e ∈ m.opcodes) : checkPairing e.2.inputs = .ok () :=
    (manifest_accepted accepted mem).pairing
  obtain ⟨fragments, loaded, fragment⟩ := exists_fragments reached legal legible
  obtain ⟨docs, generated, -⟩ := exists_documents hw paired fragments hostModule
  obtain ⟨plain, generatedPlain, -⟩ := exists_documents hw paired .empty hostModule
  refine ⟨fragments, docs, plain, loaded, ?_, generated, generatedPlain,
    fun output j apart => ⟨?_, ?_⟩⟩
  · intro j other j' tree ended
    have again := ((SameSources.refl ⟨none, directory, directory⟩ t).carries_loadFragments j _ j'
      tree ended ⟨other, rfl⟩).2
    cases loaded.symm.trans again
    rfl
  · intro goal free possible
    obtain ⟨paths, after, ended, -⟩ :=
      run_writeDocuments_ok docs free (apart goal (possible .sync).there.leads) possible
    exact ⟨paths, after, ended⟩
  · intro paths after ended mode
    obtain ⟨legal, goal, leads, pair⟩ := pairWritten_of_run ended
    obtain ⟨text, members, read, parsed, held⟩ := (pair (apart goal leads)).held.read_back legal
      (scalarNames_of_generateDocuments generated (scalar_of_loaded fragment) mode)
    refine ⟨text, members, read, parsed, ?_, ?_⟩
    · intro name content there
      refine ⟨?_, Text.asRead_eq_self_iff⟩
      rw [held, get?_of_file generated fragment there, Option.map_some, value_fragment]
    · intro name absent
      obtain ⟨doc, compiled, merged⟩ := get_eq_merge generated mode
      obtain ⟨doc', compiled', mergedPlain⟩ := get_eq_merge generatedPlain mode
      obtain rfl : doc = doc' := Except.ok.inj (compiled.symm.trans compiled')
      -- a fragment under the name would come from a file that is listed in the directory
      have none : fragments.get? name = none := by
        rw [fragment, Option.bind_eq_none_iff]
        intro file same
        cases read : t.readText (directory.child (file ++ ".wast")) with
        | error e => rfl
        | ok content =>
            obtain ⟨content, there, -⟩ := Tree.readText_eq_ok_iff.mp read
            exact absurd (absent file (Text.string?_eq_some.mp same))
              (entry_of_holdsText reached (fragment_ordinary file) there)
      rw [held, merged, mergedPlain, Document.get?_merge, Document.get?_merge, none]
      rfl

/-- A directory with two fragments, one of them with a carriage return and the other one a link to a
file of another name, and a file that is no text. -/
def fragmentTree : Tree := .ofItems ["w"] [(["w"], .directory),
  (["w", "a.wast"], .file (Text.Utf8.encode "(x)\r\n(y)")),
  (["w", "b.wast"], .link (Path.ofString "z.txt")),
  (["w", "z.txt"], .file (Text.Utf8.encode "(z)\n")), (["w", "c.bin"], .file [0xff])]

theorem fragmentTree_reached : fragmentTree.Reaches (Path.ofString ".") ["w"] :=
  ⟨by decide, by decide⟩

theorem fragmentTree_holds_a :
    fragmentTree.HoldsText ((Path.ofString ".").child ("a" ++ ".wast")) "(x)\r\n(y)" :=
  ⟨by decide, _, by decide, Text.Utf8.decode_encode _⟩

theorem fragmentTree_holds_b :
    fragmentTree.HoldsText ((Path.ofString ".").child ("b" ++ ".wast")) "(z)\n" :=
  ⟨by decide, _, by decide, Text.Utf8.decode_encode _⟩

theorem fragmentTree_legible (name : String)
    (there : fragmentTree.entry (["w"] ++ [name ++ ".wast"]) ≠ none) :
    ∃ content, fragmentTree.HoldsText ((Path.ofString ".").child (name ++ ".wast")) content := by
  have named {file : String} (same : name ++ ".wast" = file) : fragmentName? file = some name :=
    fragmentName?_eq_some_iff.mpr same.symm
  by_cases a : name = "a"
  · subst a
    exact ⟨_, fragmentTree_holds_a⟩
  by_cases b : name = "b"
  · subst b
    exact ⟨_, fragmentTree_holds_b⟩
  · refine absurd ?_ there
    have others : name ++ ".wast" ≠ "a.wast" ∧ name ++ ".wast" ≠ "b.wast" ∧
        name ++ ".wast" ≠ "z.txt" ∧ name ++ ".wast" ≠ "c.bin" :=
      ⟨fun same => a (Option.some.inj ((named same).symm.trans (by decide))),
        fun same => b (Option.some.inj ((named same).symm.trans (by decide))),
        fun same => (nomatch named same), fun same => nomatch named same⟩
    rw [Tree.entry, if_neg (by simp), List.lookup_eq_none_iff]
    have entries : fragmentTree.entries.map (·.1) =
        [["w"], ["w", "a.wast"], ["w", "b.wast"], ["w", "z.txt"], ["w", "c.bin"]] := by decide
    intro e mem
    have known : e.1 ∈ fragmentTree.entries.map (·.1) := List.mem_map_of_mem mem
    rw [entries] at known
    simp only [List.mem_cons, List.not_mem_nil, or_false] at known
    rcases known with same | same | same | same | same <;> simp [same, others]

theorem fragmentTree_apart (goal : Location)
    (leads : fragmentTree.Leads (Path.ofString ".") goal) :
    Apart fragmentTree (Path.ofString ".") goal := by
  obtain rfl := leads.unique fragmentTree_reached.leads
  refine apart_of_absent .here fun mode => ?_
  cases mode <;> decide

theorem fragmentTree_writable (mode : Mode) :
    Action.Writable (Path.ofString ".") ["w"] (outputName mode) fragmentTree where
  legal := by cases mode <;> decide
  ordinary := outputName_ordinary mode
  there := fragmentTree_reached
  draft entry held := by
    have absent : fragmentTree.entry (["w"] ++ [outputName mode ++ ".tmp"]) = none := by
      cases mode <;> decide
    cases absent.symm.trans held
  target := by cases mode <;> decide

/-- The fragment without a carriage return is read back as it is. -/
theorem fragmentTree_read_back : ∃ fragments docs paths after text members,
    (loadFragments (Path.ofString ".")).run { tree := fragmentTree } =
        (.ok (.ok fragments), { tree := fragmentTree }) ∧
      generateDocuments queriesManifest fragments {} none = .ok docs ∧
      (writeDocuments docs (Path.ofString ".")).run { tree := fragmentTree } =
        (.ok paths, after) ∧
      after.tree.readText (Path.ofString "wast-async.json") = .ok text ∧
      Json.read lastWins text = .ok (.obj members) ∧
      members.lookup ↑"b" = some (.obj [(↑"wast", .str ↑"(z)\n")]) := by
  have accepted : Manifest.ofJson "m.json" queries = .ok queriesManifest := rfl
  obtain ⟨fragments, docs, plain, loaded, -, generated, -, written⟩ := fragments_read_back
    fragmentTree_reached (by decide) fragmentTree_legible accepted
    (by decide : ({} : Context).wordBytes ≠ 0) none
  obtain ⟨possible, back⟩ :=
    written (Path.ofString ".") { tree := fragmentTree } fragmentTree_apart
  obtain ⟨paths, after, ended⟩ := possible ["w"] rfl fragmentTree_writable
  obtain ⟨text, members, read, parsed, held, -⟩ := back paths after ended .async
  obtain ⟨entry, same⟩ := held "b" _ fragmentTree_holds_b
  refine ⟨fragments, docs, paths, after, text, members, loaded, generated, ended, read,
    parsed _ (by simp), ?_⟩
  rw [entry, same.mpr (by decide)]

/-- A carriage return in a fragment's file is a line feed in the document. -/
theorem carriage_return_lost : ∃ fragments docs paths after text members,
    fragmentTree.HoldsText (Path.ofString "a.wast") "(x)\r\n(y)" ∧
      (loadFragments (Path.ofString ".")).run { tree := fragmentTree } =
        (.ok (.ok fragments), { tree := fragmentTree }) ∧
      generateDocuments queriesManifest fragments {} none = .ok docs ∧
      (writeDocuments docs (Path.ofString ".")).run { tree := fragmentTree } =
        (.ok paths, after) ∧
      after.tree.readText (Path.ofString "wast-async.json") = .ok text ∧
      Json.read lastWins text = .ok (.obj members) ∧
      members.lookup ↑"a" = some (.obj [(↑"wast", .str ↑"(x)\n(y)")]) ∧
      members.lookup ↑"a" ≠ some (.obj [(↑"wast", .str ↑"(x)\r\n(y)")]) := by
  have accepted : Manifest.ofJson "m.json" queries = .ok queriesManifest := rfl
  obtain ⟨fragments, loaded, fragment⟩ :=
    exists_fragments fragmentTree_reached (by decide) fragmentTree_legible
  obtain ⟨docs, generated, -⟩ := exists_documents (by decide : ({} : Context).wordBytes ≠ 0)
    (fun e mem => (manifest_accepted accepted mem).pairing) fragments none
  obtain ⟨paths, after, ended, pair⟩ :=
    run_writeDocuments_ok (j := { tree := fragmentTree }) docs rfl
      (fragmentTree_apart _ fragmentTree_reached.leads) fragmentTree_writable
  obtain ⟨text, members, read, parsed, held⟩ := pair.held.read_back (by decide)
    (scalarNames_of_generateDocuments generated (scalar_of_loaded fragment) .async)
  have entry : members.lookup ↑"a" = some (.obj [(↑"wast", .str ↑"(x)\n(y)")]) := by
    rw [held, get?_of_file generated fragment fragmentTree_holds_a, Option.map_some, value_fragment]
    rfl
  refine ⟨fragments, docs, paths, after, text, members, fragmentTree_holds_a, loaded, generated,
    ended, read, parsed _ (by simp), entry, ?_⟩
  rw [entry]
  simp

end Cli

end HostGlue
