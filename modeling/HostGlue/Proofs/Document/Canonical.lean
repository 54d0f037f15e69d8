import HostGlue.Document.Basic
import HostGlue.Proofs.Json.Objects
import HostGlue.Proofs.Lookup

/-!
# A document's text is canonical

The text of a document is read back as an object with the document's names in the order of their
code points, so it holds the whole document and nothing of how it came about: two documents have the
same text exactly if they give every name the same artifact.

This is so for documents of characters. A high and a low surrogate side by side are written as the
character that they are the escape of. What a text holds of other documents is therefore what they
list once their surrogates are joined: `text_eq_iff`.
-/

namespace HostGlue

/-! ## Maps in order -/

namespace NameMap

variable {α : Type} {m n : NameMap α}

theorem mem_sorted_iff {name : Text} {v : α} : (name, v) ∈ m.sorted ↔ m.get? name = some v := by
  rw [sorted, (List.mergeSort_perm _ _).mem_iff]
  exact mem_iff_lookup m.nodup

theorem sorted_nodup (m : NameMap α) : (m.sorted.map (·.1)).Nodup :=
  ((List.mergeSort_perm _ _).map _).nodup_iff.mpr m.nodup

theorem sorted_le (m : NameMap α) : m.sorted.Pairwise fun a b => a.1 ≤ b.1 := by
  refine (List.pairwise_mergeSort ?_ ?_ m.entries).imp fun le => of_decide_eq_true le
  · intro a b c ab bc
    exact decide_eq_true (Std.le_trans (of_decide_eq_true ab) (of_decide_eq_true bc))
  · intro a b
    simpa using (Std.le_total : a.1 ≤ b.1 ∨ b.1 ≤ a.1)

/-- Sorted names increase strictly. -/
theorem sorted_lt (m : NameMap α) : (m.sorted.map (·.1)).Pairwise (· < ·) := by
  have le : (m.sorted.map (·.1)).Pairwise (· ≤ ·) := List.pairwise_map.mpr m.sorted_le
  refine (le.and m.sorted_nodup).imp ?_
  rintro a b ⟨le, ne⟩
  rcases Decidable.em (a < b) with lt | ge
  · exact lt
  · exact absurd (Std.le_antisymm le (Std.not_lt.mp ge)) ne

/-- Entries in the order of their names are the sorted ones. -/
theorem sorted_eq_of_perm {l : List (Text × α)} (perm : l.Perm m.entries)
    (ordered : l.Pairwise fun a b => a.1 ≤ b.1) : m.sorted = l := by
  have same : m.sorted.Perm l := (List.mergeSort_perm _ _).trans perm.symm
  refine same.eq_of_pairwise ?_ m.sorted_le ordered
  rintro ⟨name, v⟩ ⟨other, w⟩ hv hw le ge
  obtain rfl : name = other := Std.le_antisymm le ge
  have held : m.get? name = some v := mem_sorted_iff.mp hv
  have held' : m.get? name = some w := mem_sorted_iff.mp (same.mem_iff.mpr hw)
  rw [Option.some.inj (held.symm.trans held')]

/-- Maps that give every name the same value are sorted alike. -/
theorem sorted_eq_iff : m.sorted = n.sorted ↔ ∀ name, m.get? name = n.get? name := by
  constructor
  · intro same name
    refine Option.ext fun v => ?_
    rw [← mem_sorted_iff, ← mem_sorted_iff, same]
  · intro same
    have entries (k : NameMap α) : k.entries.Nodup :=
      (List.pairwise_map.mp k.nodup).imp fun ne same => ne (congrArg Prod.fst same)
    have perm : n.entries.Perm m.entries := by
      refine (List.perm_ext_iff_of_nodup (entries n) (entries m)).mpr ?_
      rintro ⟨name, v⟩
      rw [mem_iff_lookup n.nodup, mem_iff_lookup m.nodup]
      exact iff_of_eq (congrArg (· = some v) (same name).symm)
    exact sorted_eq_of_perm ((List.mergeSort_perm _ _).trans perm) n.sorted_le

end NameMap

/-! ## Artifacts -/

open Json

namespace Artifact

/-- The artifact as a value: its code, and its import if it has one. -/
def value (a : Artifact) : Value :=
  let code := (↑"wast", .str a.code)
  match a.imports with
  | some imports => .obj [(↑"imports", .str imports), code]
  | none => .obj [code]

theorem value_inj {a b : Artifact} (h : a.value = b.value) : a = b := by
  obtain ⟨code, imports⟩ := a
  obtain ⟨code', imports'⟩ := b
  cases imports <;> cases imports' <;> simp_all [value]

/-- The artifact with the surrogates in its texts joined. -/
def joined (a : Artifact) : Artifact where
  code := Json.joined a.code
  imports := a.imports.map Json.joined

/-- There are no surrogates in the artifact's texts. -/
def IsScalar (a : Artifact) : Prop := a.code.IsScalar ∧ ∀ text ∈ a.imports, text.IsScalar

theorem joined_of_isScalar {a : Artifact} (scalar : a.IsScalar) : a.joined = a := by
  obtain ⟨code, imports⟩ := a
  have same : imports.map Json.joined = imports := by
    cases imports with
    | none => rfl
    | some text => exact congrArg some (Json.joined_of_isScalar (scalar.2 text rfl))
  rw [joined, same, Json.joined_of_isScalar scalar.1]

end Artifact

/-- Joined texts are written as they were. -/
theorem string_joined (t : Text) : Canonical.string (joined t) = Canonical.string t := by
  rw [Canonical.string, Canonical.string, flatMap_escape_joined]

theorem object_joined (depth : Nat) (members : List (Text × String)) :
    Canonical.object depth (members.map fun m => (joined m.1, m.2)) =
      Canonical.object depth members := by
  unfold Canonical.object
  simp only [List.isEmpty_map, List.map_map, Function.comp_def, string_joined]

theorem members_joined (a : Artifact) : a.joined.members = a.members := by
  obtain ⟨code, imports⟩ := a
  cases imports <;> simp [Artifact.members, Artifact.joined, string_joined]

/-- The text of an artifact is read as its value, surrogates joined. -/
theorem readsAs_members {rule : ClosingRule} (faithful : Faithful rule) (a : Artifact)
    (depth : Nat) : ReadsAs rule (Canonical.object depth a.members) a.joined.value := by
  have string (name : String) (text : Text) (scalar : joined name = name) :
      MemberReads rule (↑name, Canonical.string text) (↑name, .str (joined text)) :=
    ⟨scalar, readsAs_string text⟩
  obtain ⟨code, imports⟩ := a
  have wast := string "wast" code (joined_of_isScalar (Text.isScalar_ofString _))
  cases imports with
  | none => exact readsAs_object (.cons wast .nil) (faithful _ (by simp)) depth
  | some text =>
      have imported := string "imports" text (joined_of_isScalar (Text.isScalar_ofString _))
      exact readsAs_object (.cons imported (.cons wast .nil)) (faithful _ (by simp)) depth

theorem plain_members (a : Artifact) : ∀ m ∈ a.members, ∀ c ∈ m.2.toList, IsPlain c := by
  unfold Artifact.members
  cases a.imports with
  | none => simpa using plain_string a.code
  | some text => simpa using ⟨plain_string text, plain_string a.code⟩

/-! ## Documents -/

namespace Document

/-- What the document lists: its names in order, each with its artifact, surrogates joined. -/
def listed (doc : Document) : List (Text × Artifact) :=
  doc.sorted.map fun e => (joined e.1, e.2.joined)

/-- The document as a value. -/
def value (doc : Document) : Value := .obj (doc.listed.map fun e => (e.1, e.2.value))

/-- There are no surrogates in the document. -/
def IsScalar (doc : Document) : Prop := ∀ e ∈ doc.entries, e.1.IsScalar ∧ e.2.IsScalar

/-- The document's text without the line end. -/
def body (doc : Document) : String :=
  Canonical.object 0 (doc.sorted.map fun e => (e.1, Canonical.object 1 e.2.members))

theorem text_eq (doc : Document) : doc.text = doc.body ++ "\n" := rfl

theorem body_braces (doc : Document) : ∃ inner, doc.body.toList = '\x7b' :: (inner ++ ['\x7d']) :=
  object_braces 0 _

theorem body_eq (doc : Document) : doc.body =
    Canonical.object 0 (doc.listed.map fun e => (e.1, Canonical.object 1 e.2.members)) := by
  have names := object_joined 0 (doc.sorted.map fun e => (e.1, Canonical.object 1 e.2.members))
  rw [List.map_map] at names
  rw [listed, List.map_map, body, ← names]
  simp only [Function.comp_def, members_joined]

theorem isScalar_iff {doc : Document} :
    doc.IsScalar ↔ ∀ name a, doc.get? name = some a → name.IsScalar ∧ a.IsScalar :=
  ⟨fun h name a held => h (name, a) ((mem_iff_lookup doc.nodup).mpr held),
    fun h e mem => h e.1 e.2 ((mem_iff_lookup doc.nodup).mp mem)⟩

theorem listed_of_isScalar {doc : Document} (scalar : doc.IsScalar) : doc.listed = doc.sorted := by
  refine (List.map_congr_left fun e mem => ?_).trans (List.map_id _)
  obtain ⟨name, artifact⟩ := scalar e ((List.mergeSort_perm _ _).mem_iff.mp mem)
  rw [joined_of_isScalar name, Artifact.joined_of_isScalar artifact]
  rfl

theorem readsAs_body {rule : ClosingRule} (faithful : Faithful rule) {doc : Document}
    (kept : rule (doc.listed.map fun e => (e.1, e.2.value)) =
      .ok (doc.listed.map fun e => (e.1, e.2.value))) : ReadsAs rule doc.body doc.value := by
  refine readsAs_object ?_ kept 0
  rw [listed, List.map_map, List.forall₂_map_left_iff, List.forall₂_map_right_iff,
    List.forall₂_same]
  exact fun e _ => ⟨rfl, readsAs_members faithful e.2 1⟩

/-- **The text is read as the document**, if the reader keeps its names. -/
theorem read_text {rule : ClosingRule} (faithful : Faithful rule) {doc : Document}
    (kept : rule (doc.listed.map fun e => (e.1, e.2.value)) =
      .ok (doc.listed.map fun e => (e.1, e.2.value))) :
    Json.read rule doc.text = .ok doc.value := by
  obtain ⟨inner, braces⟩ := doc.body_braces
  have unmarked : (Text.ofString doc.body).head? ≠ some (.char '\uFEFF') := by
    rw [Text.ofString, braces]
    simp
  rw [text_eq, Text.ofString_append]
  exact read_line (readsAs_body faithful kept) unmarked

theorem value_eq_iff {doc other : Document} :
    doc.value = other.value ↔ doc.listed = other.listed := by
  constructor
  · intro same
    have injective : Function.Injective fun e : Text × Artifact => (e.1, e.2.value) := by
      rintro ⟨name, a⟩ ⟨name', a'⟩ h
      rw [Prod.mk.injEq] at h
      exact Prod.ext h.1 (Artifact.value_inj h.2)
    exact List.map_injective_iff.mpr injective (Value.obj.inj same)
  · intro same
    rw [value, value, same]

/-- A document's text is written in printable ASCII characters. -/
theorem plain_text (doc : Document) : ∀ c ∈ doc.text.toList, IsPlain c := by
  intro c hc
  rw [text_eq, String.toList_append, List.mem_append] at hc
  rcases hc with hc | hc
  · refine plain_object 0 (fun m hm => ?_) c hc
    obtain ⟨e, -, rfl⟩ := List.mem_map.mp hm
    exact plain_object 1 (plain_members e.2)
  · exact .inl (by simpa using hc)

/-- **Documents have the same text exactly if they list the same.** -/
theorem text_eq_iff {doc other : Document} : doc.text = other.text ↔ doc.listed = other.listed := by
  constructor
  · intro same
    have read : Json.read asWritten doc.text = .ok doc.value := read_text asWritten_faithful rfl
    rw [same, read_text asWritten_faithful rfl] at read
    exact value_eq_iff.mp (Except.ok.inj read).symm
  · intro same
    rw [text_eq, text_eq, body_eq, body_eq, same]

theorem text_congr {doc other : Document} (same : ∀ name, doc.get? name = other.get? name) :
    doc.text = other.text := by
  rw [text, text, NameMap.sorted_eq_iff.mpr same]

/-- Without surrogates that is to say that they give every name the same artifact. -/
theorem listed_eq_iff {doc other : Document} (scalar : doc.IsScalar) (scalar' : other.IsScalar) :
    doc.listed = other.listed ↔ ∀ name, doc.get? name = other.get? name := by
  rw [listed_of_isScalar scalar, listed_of_isScalar scalar', NameMap.sorted_eq_iff]

theorem read_text_of_isScalar {rule : ClosingRule} (faithful : Faithful rule) {doc : Document}
    (scalar : doc.IsScalar) :
    Json.read rule doc.text = .ok (.obj (doc.sorted.map fun e => (e.1, e.2.value))) := by
  rw [← listed_of_isScalar scalar]
  refine read_text faithful (faithful _ ?_)
  rw [listed_of_isScalar scalar, List.map_map]
  exact doc.sorted_nodup

/-- **Texts are canonical.** Take a document of characters. Its text consists of printable ASCII
characters and line ends and ends in a single line end. It is read, whatever the reader does with
repeated names, as an object with the document's names, strictly increasing, each with the artifact
of the name. Another such document has the same text exactly if it gives every name the same
artifact. -/
theorem text_canonical (doc : Document) (scalar : doc.IsScalar) :
    (∀ c ∈ doc.text.toList, c = '\n' ∨ ' ' ≤ c ∧ c ≤ '~') ∧
      (∃ body, doc.text = body ++ "\n" ∧ body.toList.getLast? ≠ some '\n') ∧
      (∃ entries : List (Text × Artifact), (entries.map (·.1)).Pairwise (· < ·) ∧
        (∀ name a, (name, a) ∈ entries ↔ doc.get? name = some a) ∧
        ∀ rule ∈ [asWritten, lastWins, distinct],
          Json.read rule doc.text = .ok (.obj (entries.map fun e => (e.1, e.2.value)))) ∧
      ∀ other : Document, other.IsScalar →
        (doc.text = other.text ↔ ∀ name, doc.get? name = other.get? name) := by
  refine ⟨doc.plain_text, ⟨doc.body, doc.text_eq, ?_⟩, ⟨doc.sorted, doc.sorted_lt,
    fun name a => NameMap.mem_sorted_iff, fun rule known => ?_⟩, fun other scalar' => ?_⟩
  · obtain ⟨inner, braces⟩ := doc.body_braces
    rw [braces, List.getLast?_cons]
    simp
  · exact read_text_of_isScalar (faithful_of_mem known) scalar
  · exact text_eq_iff.trans (listed_eq_iff scalar scalar')

/-- The second name comes first by code points, and last by 16-bit units. -/
def faces : Document :=
  .ofList [(↑"😀", { code := ↑"(a)\r\n" }), (↑"～", { code := ↑"(b)", imports := some ↑"\u0001" })]

def facesTurned : Document :=
  .ofList [(↑"～", { code := ↑"(b)", imports := some ↑"\u0001" }), (↑"😀", { code := ↑"(a)\r\n" })]

theorem faces_canonical :
    faces.IsScalar ∧ facesTurned.IsScalar ∧ faces.text = facesTurned.text := by
  have scalar : faces.IsScalar := by
    unfold IsScalar Artifact.IsScalar Text.IsScalar
    decide
  have scalar' : facesTurned.IsScalar := by
    unfold IsScalar Artifact.IsScalar Text.IsScalar
    decide
  obtain ⟨-, -, -, same⟩ := text_canonical faces scalar
  refine ⟨scalar, scalar', (same facesTurned scalar').mpr fun name => ?_⟩
  exact lookup_of_perm faces.nodup (by decide) name

end Document

end HostGlue
