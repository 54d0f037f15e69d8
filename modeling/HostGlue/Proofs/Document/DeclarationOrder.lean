import HostGlue.Proofs.Document.Entries
import HostGlue.Proofs.Interface.DeclarationOrder
import HostGlue.Proofs.Json.Derivations

/-!
# Documents do not depend on the order of declaration

What a document holds under a name is a lookup among the opcodes and the fragments, and its text is
told by these lookups. So the order in which opcodes are declared, fields are written or fragments
are found leaves no trace: not in what is held, and not in whether there are documents at all.
-/

namespace HostGlue

open Interface Machine Marshal Json

section Manifests

variable {m m' : Manifest} (reordered : m.Reordered m')

include reordered

theorem chooseHostModule_of_reordered (given : Option Text) :
    chooseHostModule m given = chooseHostModule m' given := by
  rw [chooseHostModule_eq, chooseHostModule_eq, reordered.hostModule]

theorem functionOf_of_reordered (nodup : m.names.Nodup) {mode : Mode} {ctx : Context} (name : Text) :
    functionOf m.opcodes mode ctx name = functionOf m'.opcodes mode ctx name := by
  unfold functionOf
  congr 1
  funext opcode
  rw [lookup_of_perm nodup reordered.opcodes]

/-- **From manifests that differ in the order of opcodes the same documents are generated**, and
from fragments in whatever order they were found. -/
theorem exists_documents_of_reordered (nodup : m.names.Nodup) {fragments fragments' : Fragments}
    (same : ∀ name, fragments.get? name = fragments'.get? name) {ctx : Context}
    {hostModule : Option Text} {docs : Documents}
    (h : generateDocuments m fragments ctx hostModule = .ok docs) :
    ∃ docs', generateDocuments m' fragments' ctx hostModule = .ok docs' ∧
      ∀ mode, (docs.get mode).text = (docs'.get mode).text := by
  have functions := exists_generateDocuments_iff.mp ⟨docs, h⟩
  have module := chooseHostModule_of_reordered reordered hostModule
  obtain ⟨docs', h'⟩ : ∃ docs', generateDocuments m' fragments' ctx hostModule = .ok docs' := by
    refine exists_generateDocuments_iff.mpr fun mode e mem => ?_
    rw [← module]
    exact functions mode e (reordered.opcodes.mem_iff.mpr mem)
  have nodup' : m'.names.Nodup := (reordered.opcodes.map _).nodup_iff.mp nodup
  refine ⟨docs', h', fun mode => Document.text_congr fun name => ?_⟩
  rw [get?_of_generateDocuments h nodup, get?_of_generateDocuments h' nodup', same, module,
    functionOf_of_reordered reordered nodup]

end Manifests

/-! ## From the texts -/

/-- Both are JSON texts, of values that differ at most in the order of members. Blanks and the
spelling of scalars are left open by the grammar. -/
def Redeclared (text text' : Text) : Prop :=
  ∃ v v', JsonText text v ∧ JsonText text' v' ∧ v.Reordered v'

theorem manifest_ofText_eq_ok_iff {path file : String} {text : Text} {v : Value} {m : Manifest}
    (derived : JsonText text v) :
    Manifest.ofText path file text = .ok m ↔ v.Distinct ∧ Describes .accepted v m := by
  have read := read_asWritten_iff.mpr derived
  simp only [Manifest.ofText, except_bind_eq_ok, except_mapError_eq_ok, read_distinct_iff, read,
    Except.ok.injEq, manifest_ofJson_eq_ok_iff, and_assoc, exists_eq_left']

theorem Redeclared.exists_manifest {text text' : Text} {path file : String} {m : Manifest}
    (redeclared : Redeclared text text') (accepted : Manifest.ofText path file text = .ok m)
    (path' file' : String) :
    ∃ m', Manifest.ofText path' file' text' = .ok m' ∧ m.Reordered m' ∧ m.names.Nodup := by
  obtain ⟨v, v', derived, derived', reordered⟩ := redeclared
  obtain ⟨distinct, describes⟩ := (manifest_ofText_eq_ok_iff derived).mp accepted
  obtain ⟨m', describes', manifests⟩ := describes.of_reordered reordered distinct
  have nodup : m.names.Nodup :=
    nodup_names distinct (manifest_ofJson_eq_ok_iff.mpr describes : Manifest.ofJson file v = _)
  exact ⟨m', (manifest_ofText_eq_ok_iff derived').mpr ⟨reordered.distinct distinct, describes'⟩,
    manifests, nodup⟩

/-- **The order of declaration leaves no trace.** A text that differs from a manifest's at most in
blanks and in the order of members is a manifest too. With fragments that are the same whatever
their order, documents are generated from it whenever they are from the first, and they have the
same texts; and from the first they are, unless words have no bytes. -/
theorem redeclared_documents {text text' : Text} {path file : String} {m : Manifest}
    (redeclared : Redeclared text text') (accepted : Manifest.ofText path file text = .ok m)
    (path' file' : String) :
    ∃ m', Manifest.ofText path' file' text' = .ok m' ∧
      ∀ fragments fragments' : Fragments,
        (∀ name, fragments.get? name = fragments'.get? name) → ∀ ctx hostModule,
          (ctx.wordBytes ≠ 0 → ∃ docs, generateDocuments m fragments ctx hostModule = .ok docs) ∧
          ∀ docs, generateDocuments m fragments ctx hostModule = .ok docs →
            ∃ docs', generateDocuments m' fragments' ctx hostModule = .ok docs' ∧
              docs.sync.text = docs'.sync.text ∧ docs.async.text = docs'.async.text := by
  obtain ⟨m', accepted', manifests, nodup⟩ := redeclared.exists_manifest accepted path' file'
  obtain ⟨data, -, described⟩ := except_bind_eq_ok.mp accepted
  refine ⟨m', accepted', fun fragments fragments' same ctx hostModule => ⟨fun hw => ?_, ?_⟩⟩
  · have paired (e) (mem : e ∈ m.opcodes) : checkPairing e.2.inputs = .ok () :=
      (manifest_accepted described mem).pairing
    obtain ⟨docs, generated, -⟩ := exists_documents hw paired fragments hostModule
    exact ⟨docs, generated⟩
  · intro docs generated
    obtain ⟨docs', generated', texts⟩ :=
      exists_documents_of_reordered manifests nodup same generated
    exact ⟨docs', generated', texts .sync, texts .async⟩

def declaredText : Text :=
  "\x7b\"schema_version\":1,\"opcodes\":\x7b" ++
    "\"GAS\":\x7b\"name\":\"gas\",\"input\":[],\"output\":[]\x7d," ++
    "\"SIZE\":\x7b\"name\":\"size\",\"input\":[],\"output\":[]\x7d\x7d\x7d"

/-- The same manifest with everything in the opposite order, and with blanks. -/
def redeclaredText : Text :=
  "\x7b\"opcodes\": \x7b" ++
    "\"SIZE\":\x7b\"output\":[],\"input\":[],\"name\":\"size\"\x7d," ++
    "\"GAS\":\x7b\"output\":[],\"input\":[],\"name\":\"gas\"\x7d\x7d," ++
    "\n\"schema_version\": 1\x7d\n"

def declaredValue : Value :=
  .obj [("schema_version", .int 1), ("opcodes", .obj [
    ("GAS", .obj [("name", .str "gas"), ("input", .arr []), ("output", .arr [])]),
    ("SIZE", .obj [("name", .str "size"), ("input", .arr []), ("output", .arr [])])])]

def redeclaredValue : Value :=
  .obj [("opcodes", .obj [
    ("SIZE", .obj [("output", .arr []), ("input", .arr []), ("name", .str "size")]),
    ("GAS", .obj [("output", .arr []), ("input", .arr []), ("name", .str "gas")])]),
    ("schema_version", .int 1)]

theorem declaredValue_reordered : declaredValue.Reordered redeclaredValue := by
  have reversed (members : Members) : (Value.obj members).Reordered (.obj members.reverse) :=
    .permuted members.reverse_perm.symm
  refine .trans (reversed _) (.member [] _ "opcodes" ?_)
  refine .trans (reversed _) (.trans (.member [] _ "SIZE" (reversed _)) ?_)
  exact .member [_] [] "GAS" (reversed _)

theorem declaredText_derived : JsonText declaredText declaredValue :=
  read_asWritten_iff.mp (by decide +kernel)

theorem redeclaredText_derived : JsonText redeclaredText redeclaredValue :=
  read_asWritten_iff.mp (by decide +kernel)

theorem declaredText_redeclared : Redeclared declaredText redeclaredText :=
  ⟨declaredValue, redeclaredValue, declaredText_derived, redeclaredText_derived,
    declaredValue_reordered⟩

def declaredManifest : Manifest where
  hostModule := "ethereum"
  opcodes := [("GAS", { name := "gas" }), ("SIZE", { name := "size" })]

theorem declaredText_accepted (path file : String) :
    Manifest.ofText path file declaredText = .ok declaredManifest := by
  have distinct : declaredValue.Distinct := by
    simp [declaredValue, Value.Distinct, membersDistinct, itemsDistinct]
  have described : Manifest.ofJson file declaredValue = .ok declaredManifest := rfl
  exact (manifest_ofText_eq_ok_iff declaredText_derived).mpr
    ⟨distinct, manifest_ofJson_eq_ok_iff.mp described⟩

theorem redeclaredText_documents : ∃ m' docs docs',
    Manifest.ofText "b.json" "b.json" redeclaredText = .ok m' ∧
      generateDocuments declaredManifest (.ofList [("ADD", "(add)"), ("MUL", "(mul)")]) {} none =
        .ok docs ∧
      generateDocuments m' (.ofList [("MUL", "(mul)"), ("ADD", "(add)")]) {} none = .ok docs' ∧
      docs.sync.text = docs'.sync.text ∧ docs.async.text = docs'.async.text := by
  obtain ⟨m', accepted, documents⟩ := redeclared_documents declaredText_redeclared
    (declaredText_accepted "a.json" "a.json") "b.json" "b.json"
  have same (name : Text) :
      (NameMap.ofList [(↑"ADD", ↑"(add)"), (↑"MUL", ↑"(mul)")] : Fragments).get? name =
        (NameMap.ofList [(↑"MUL", ↑"(mul)"), (↑"ADD", ↑"(add)")] : Fragments).get? name :=
    lookup_of_perm (by decide) (List.Perm.swap _ _ _) name
  obtain ⟨generates, texts⟩ := documents _ _ same {} none
  obtain ⟨docs, generated⟩ := generates (by decide)
  obtain ⟨docs', generated', sync, async⟩ := texts docs generated
  exact ⟨m', docs, docs', accepted, generated, generated', sync, async⟩

end HostGlue
