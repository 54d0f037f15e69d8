import HostGlue.Interface.Manifest
import HostGlue.Proofs.Interface.Pairing
import Mathlib.Data.List.Forall2

/-!
# The manifest format

What a JSON value has to look like to be a manifest, and which manifest it then is, said by members
and not by checks: `Describes`. The reader takes the checks one after the other and returns at the
first fault; `manifest_ofJson_eq_ok_iff` says that what it accepts is the format, and nothing else.

A format leaves open what counts as a version and as a name. The reader is laxer there than the
documented format: it takes `true` for the version one, since it compares truth values with
numbers, and lets a name end in a line feed. `describes_documented_iff` says that this is all.
-/

namespace HostGlue.Interface

open Json Decimal

/-! ## Names -/

def isLetter (c : Char) : Bool := ('A' ≤ c ∧ c ≤ 'Z') ∨ ('a' ≤ c ∧ c ≤ 'z')

/-- A letter, a digit or an underscore. -/
def isWordChar (c : Char) : Bool := isLetter c || ('0' ≤ c ∧ c ≤ '9') || c = '_'

/-- The name consists entirely of the characters, a letter or an underscore in front. -/
def IsPlainName (allowed : Char → Bool) (name : String) : Prop :=
  ∃ first rest, name.toList = first :: rest ∧ (isLetter first = true ∨ first = '_') ∧
    ∀ c ∈ rest, allowed c = true

/-- The name, or the name without a line feed at its end, is plain. -/
def IsLaxName (allowed : Char → Bool) (name : String) : Prop :=
  IsPlainName allowed name ∨ ∃ plain, IsPlainName allowed plain ∧ name = plain ++ "\n"

/-! ## The format -/

/-- What counts as a version and as a name. -/
structure Lexicon where
  version : Value → Prop
  opcodeName : String → Prop
  hostName : String → Prop

/-- The number one. -/
def IsNumberOne (v : Value) : Prop := v = .int 1 ∨ v = .float Binary64.one

def Lexicon.documented : Lexicon where
  version := IsNumberOne
  opcodeName := IsPlainName isWordChar
  hostName := IsPlainName fun c => isWordChar c || c = '.'

def Lexicon.accepted : Lexicon where
  version v := IsNumberOne v ∨ v = .bool true
  opcodeName := IsLaxName isWordChar
  hostName := IsLaxName fun c => isWordChar c || c = '.'

/-- The note among the members, which may be left out or null. -/
def NoteIs (members : Members) : Option Text → Prop
  | some text => member? members "note" = some (.str text)
  | none => member? members "note" = none ∨ member? members "note" = some .null

/-- The members describe the descriptor. -/
structure DescribesEntry (L : Lexicon) (members : Members) (d : Descriptor) : Prop where
  name : member? members "name" = some (.str d.name)
  hostName : L.hostName d.name
  isAsync : member? members "async" = some (.bool d.isAsync) ∨
    member? members "async" = none ∧ d.isAsync = false
  inputs : member? members "input" = some (.arr (d.inputs.map fun k => .str k.name))
  outputs : member? members "output" = some (.arr (d.outputs.map fun k => .str k.name))
  single : d.outputs.length ≤ 1
  pairing : KeepsPairing false d.inputs
  note : NoteIs members d.note

/-- The members describe the opcodes, each under its key and in their order. -/
def DescribesOpcodes (L : Lexicon) (members : Members) (opcodes : List (String × Descriptor)) :
    Prop :=
  List.Forall₂ (fun member entry => member.1 = entry.1 ∧ L.opcodeName entry.1 ∧
    ∃ inner, member.2 = .obj inner ∧ DescribesEntry L inner entry.2) members opcodes

/-- The value describes the manifest. -/
def Describes (L : Lexicon) (v : Value) (m : Manifest) : Prop :=
  ∃ members, v = .obj members ∧
    (∃ version, member? members "schema_version" = some version ∧ L.version version) ∧
    (member? members "host_module" = some (.str m.hostModule) ∨
      member? members "host_module" = none ∧ m.hostModule = "ethereum") ∧
    ∃ inner, member? members "opcodes" = some (.obj inner) ∧ DescribesOpcodes L inner m.opcodes

/-! ## The checks of names -/

section Names

variable {allowed : Char → Bool} {cs : List Char} {name : String}

theorem isNameStart_iff {c : Char} : isNameStart c = true ↔ isLetter c = true ∨ c = '_' := by
  have alpha : c.isAlpha =
      (decide ('A' ≤ c ∧ c ≤ 'Z') || (decide ('a' ≤ c) && decide (c ≤ 'z'))) := rfl
  simp [isNameStart, isLetter, alpha]

theorem opcodeChar_eq : (fun c => isNameStart c || c.isDigit) = isWordChar := by
  funext c
  rw [Bool.eq_iff_iff]
  simp only [Bool.or_eq_true, isNameStart_iff, isWordChar, decide_eq_true_eq]
  rw [or_right_comm]
  simp [Char.isDigit, Char.le_def]

theorem isNameTail_iff :
    isNameTail allowed cs = true ↔
      (∀ c ∈ cs, allowed c = true) ∨
        ∃ plain, (∀ c ∈ plain, allowed c = true) ∧ cs = plain ++ ['\n'] := by
  fun_induction isNameTail allowed cs with
  | case1 => simp
  | case2 => simp
  | case3 c rest notEnd ih =>
      rw [Bool.and_eq_true, ih]
      constructor
      · rintro ⟨first, others | ⟨plain, others, rfl⟩⟩
        · exact .inl (List.forall_mem_cons.mpr ⟨first, others⟩)
        · exact .inr ⟨c :: plain, List.forall_mem_cons.mpr ⟨first, others⟩, rfl⟩
      · rintro (all | ⟨plain, all, split⟩)
        · exact ⟨all c List.mem_cons_self, .inl (List.forall_mem_cons.mp all).2⟩
        · cases plain with
          | nil =>
              obtain ⟨rfl, rfl⟩ := List.cons.inj split
              exact absurd rfl (notEnd rfl)
          | cons c' plain =>
              obtain ⟨rfl, rfl⟩ := List.cons.inj split
              obtain ⟨first, others⟩ := List.forall_mem_cons.mp all
              exact ⟨first, .inr ⟨plain, others, rfl⟩⟩

theorem isName_iff : isName allowed name.toList = true ↔ IsLaxName allowed name := by
  have open_ {plain : String} {first : Char} {rest : List Char}
      (named : plain.toList = first :: rest) :
      (plain ++ "\n").toList = first :: (rest ++ ['\n']) := by simp [named]
  cases h : name.toList with
  | nil =>
      refine iff_of_false Bool.false_ne_true ?_
      rintro (⟨first, rest, named, -⟩ | ⟨plain, ⟨first, rest, named, -⟩, rfl⟩)
      · rw [h] at named
        cases named
      · rw [open_ named] at h
        cases h
  | cons c cs =>
      rw [isName, Bool.and_eq_true, isNameStart_iff, isNameTail_iff]
      constructor
      · rintro ⟨start, all | ⟨plain, all, rfl⟩⟩
        · exact .inl ⟨c, cs, h, start, all⟩
        · refine .inr ⟨String.ofList (c :: plain), ⟨c, plain, String.toList_ofList, start, all⟩, ?_⟩
          apply String.toList_injective
          simp [h]
      · rintro (⟨first, rest, named, start, all⟩ | ⟨plain, ⟨first, rest, named, start, all⟩, rfl⟩)
        · rw [h] at named
          obtain ⟨rfl, rfl⟩ := List.cons.inj named
          exact ⟨start, .inl all⟩
        · rw [open_ named] at h
          obtain ⟨rfl, rfl⟩ := List.cons.inj h
          exact ⟨start, .inr ⟨rest, all, rfl⟩⟩

/-- A lax name is plain if it has no line feed. -/
theorem isPlainName_iff (unbroken : allowed '\n' = false) :
    IsPlainName allowed name ↔ IsLaxName allowed name ∧ '\n' ∉ name.toList := by
  constructor
  · rintro ⟨first, rest, named, start, all⟩
    refine ⟨.inl ⟨first, rest, named, start, all⟩, fun broken => ?_⟩
    rw [named] at broken
    rcases List.mem_cons.mp broken with rfl | broken
    · revert start
      decide
    · rw [all _ broken] at unbroken
      cases unbroken
  · rintro ⟨plain | ⟨plain, -, rfl⟩, whole⟩
    · exact plain
    · exact absurd (by simp) whole

theorem isOpcodeName_iff : isOpcodeName name = true ↔ Lexicon.accepted.opcodeName name := by
  rw [isOpcodeName, opcodeChar_eq]
  exact isName_iff

theorem isHostName_iff : isHostName name = true ↔ Lexicon.accepted.hostName name := by
  have same : (fun c => isNameStart c || c.isDigit || c = '.') =
      fun c => isWordChar c || c = '.' := by
    funext c
    rw [← opcodeChar_eq]
  rw [isHostName, same]
  exact isName_iff

end Names

/-! ## The checks of values -/

section Values

variable {place source opcode : String} {v : Value} {members : Members}

theorem expectObject_eq_ok_iff : expectObject place v = .ok members ↔ v = .obj members := by
  cases v <;> simp [expectObject]

theorem expectList_eq_ok_iff {items : List Value} :
    expectList place v = .ok items ↔ v = .arr items := by
  cases v <;> simp [expectList]

theorem expectString_eq_ok_iff {s : Text} : expectString place v = .ok s ↔ v = .str s := by
  cases v <;> simp [expectString]

theorem expectName_eq_ok_iff {valid : String → Bool} {fault : ManifestError} {given : Text}
    {name : String} :
    expectName valid fault given = .ok name ↔ given = name ∧ valid name = true := by
  unfold expectName
  cases text : given.string? with
  | none =>
      refine iff_of_false nofun fun h => ?_
      rw [h.1, Text.string?_ofString] at text
      cases text
  | some s =>
      obtain rfl := Text.string?_eq_some.mp text
      by_cases h : valid s = true
      · simp only [h, if_true, Except.ok.injEq, Text.ofString_inj]
        exact ⟨fun same => ⟨same, same ▸ h⟩, And.left⟩
      · simp only [h, if_false, reduceCtorEq, Text.ofString_inj, false_iff, not_and]
        rintro rfl
        exact h

theorem text_ofName?_eq_some_iff {α : Type} {ofName? : String → Option α} {name : α → String}
    (h : ∀ {s a}, ofName? s = some a ↔ s = name a) {text : Text} {a : α} :
    text.string?.bind ofName? = some a ↔ text = name a := by
  simp only [Option.bind_eq_some_iff, Text.string?_eq_some, h]
  constructor
  · rintro ⟨_, rfl, rfl⟩
    rfl
  · rintro rfl
    exact ⟨_, rfl, rfl⟩

theorem isOne_iff : v.isOne = true ↔ Lexicon.accepted.version v := by
  cases v <;> simp [Value.isOne, Lexicon.accepted, IsNumberOne]

theorem paramKind_eq_ok_iff {kind : ParamKind} :
    paramKind place v = .ok kind ↔ v = .str kind.name := by
  cases v with
  | str s =>
      rw [Value.str.injEq, ← text_ofName?_eq_some_iff @ParamKind.ofName?_eq_some_iff, paramKind]
      cases s.string?.bind ParamKind.ofName? with
      | none => simp
      | some other => simp
  | _ => simp [paramKind]

theorem returnKind_eq_ok_iff {kind : ReturnKind} :
    returnKind place v = .ok kind ↔ v = .str kind.name := by
  cases v with
  | str s =>
      rw [Value.str.injEq, ← text_ofName?_eq_some_iff @ReturnKind.ofName?_eq_some_iff, returnKind]
      cases s.string?.bind ReturnKind.ofName? with
      | none => simp
      | some other => simp
  | _ => simp [returnKind]

/-- If every item is read as what it spells, the items are the spellings of what was read. -/
theorem readEach_eq_ok_iff {α : Type} {read : String → Value → Checked α} {spelled : α → Value}
    (each : ∀ place v a, read place v = .ok a ↔ v = spelled a) {index : Nat} {items : List Value}
    {as : List α} : readEach place read index items = .ok as ↔ items = as.map spelled := by
  induction items generalizing index as with
  | nil =>
      rw [readEach, except_pure_eq_ok, eq_comm, eq_comm (a := []), List.map_eq_nil_iff]
  | cons v rest ih =>
      rw [readEach]
      simp only [except_bind_eq_ok, except_pure_eq_ok, each, ih]
      constructor
      · rintro ⟨a, rfl, others, rfl, rfl⟩
        rfl
      · intro spells
        cases as with
        | nil => cases spells
        | cons a others =>
            obtain ⟨rfl, rfl⟩ := List.cons.inj spells
            exact ⟨a, rfl, others, rfl, rfl⟩

theorem readEach_paramKind_iff {index : Nat} {items : List Value} {kinds : List ParamKind} :
    readEach place paramKind index items = .ok kinds ↔ items = kinds.map fun k => .str k.name :=
  readEach_eq_ok_iff fun _ _ _ => paramKind_eq_ok_iff

theorem readEach_returnKind_iff {index : Nat} {items : List Value} {kinds : List ReturnKind} :
    readEach place returnKind index items = .ok kinds ↔ items = kinds.map fun k => .str k.name :=
  readEach_eq_ok_iff fun _ _ _ => returnKind_eq_ok_iff

theorem requireKeys_eq_ok_iff {keys : List String} :
    requireKeys place members keys = .ok () ↔ ∀ key ∈ keys, member? members key ≠ none := by
  simp only [requireKeys, List.isEmpty_iff]
  split
  · next h => simpa [List.filter_eq_nil_iff] using h
  · next h => simpa [List.filter_eq_nil_iff] using h

theorem readAsync_eq_ok_iff {b : Bool} :
    readAsync place members = .ok b ↔
      member? members "async" = some (.bool b) ∨ member? members "async" = none ∧ b = false := by
  unfold readAsync
  split
  · next absent => simp [absent, eq_comm]
  · next other present => simp [present]
  · next v noBool present =>
      simp only [present, reduceCtorEq, Option.some.injEq, false_and, or_false, false_iff]
      exact noBool b

theorem readNote_eq_ok_iff {note : Option Text} :
    readNote place members = .ok note ↔ NoteIs members note := by
  unfold readNote NoteIs
  split
  · next absent => cases note <;> simp [absent]
  · next null => cases note <;> simp [null]
  · next v noNull present =>
      have other : v ≠ .null := noNull
      rw [except_functor_map_eq_ok]
      cases note <;> simp [present, expectString_eq_ok_iff, other]

/-- A required member stands for itself, whatever would stand in for it. -/
theorem getD_lookup_iff {key : String} {w : Value} (required : member? members key ≠ none) :
    (member? members key).getD v = w ↔ member? members key = some w := by
  obtain ⟨found, h⟩ := Option.ne_none_iff_exists'.mp required
  simp [h]

/-- **An entry is read exactly if it has the format.** -/
theorem descriptor_ofJson_eq_ok_iff {raw : Value} {d : Descriptor} :
    Descriptor.ofJson source opcode raw = .ok d ↔
      ∃ members, raw = .obj members ∧ DescribesEntry .accepted members d := by
  unfold Descriptor.ofJson
  simp only [except_bind_eq_ok, except_guard_eq_ok, except_mapError_eq_ok, except_pure_eq_ok,
    Nat.not_lt, expectObject_eq_ok_iff, expectString_eq_ok_iff, expectName_eq_ok_iff,
    expectList_eq_ok_iff, readAsync_eq_ok_iff, readNote_eq_ok_iff, readEach_paramKind_iff,
    readEach_returnKind_iff, isHostName_iff]
  constructor
  · rintro ⟨members, rfl, _, required, _, hname, name, ⟨rfl, isName⟩, isAsync, hasync, _, hinput, _,
      houtput, inputs, rfl, outputs, rfl, single, _, pairing, note, hnote, rfl⟩
    obtain ⟨named, input, output, -⟩ := by
      simpa only [List.forall_mem_cons] using requireKeys_eq_ok_iff.mp required
    exact ⟨members, rfl,
      { name := (getD_lookup_iff named).mp hname
        hostName := isName
        isAsync := hasync
        inputs := (getD_lookup_iff input).mp hinput
        outputs := (getD_lookup_iff output).mp houtput
        single := single
        pairing := checkPairing_eq_ok_iff.mp pairing
        note := hnote }⟩
  · rintro ⟨members, rfl, h⟩
    have required : requireKeys (source ++ ":" ++ opcode) members ["name", "input", "output"] =
        .ok () := by
      rw [requireKeys_eq_ok_iff]
      simp only [List.forall_mem_cons, h.name, h.inputs, h.outputs]
      simp
    refine ⟨members, rfl, (), required, d.name, ?_, d.name, ⟨rfl, h.hostName⟩, d.isAsync, h.isAsync,
      _, ?_, _, ?_, d.inputs, rfl, d.outputs, rfl, h.single, (),
      checkPairing_eq_ok_iff.mpr h.pairing, d.note, h.note, rfl⟩
    · rw [h.name]
      rfl
    · rw [h.inputs]
      rfl
    · rw [h.outputs]
      rfl

theorem readOpcodes_eq_ok_iff {entries : List (String × Descriptor)} :
    readOpcodes source members = .ok entries ↔ DescribesOpcodes .accepted members entries := by
  induction members generalizing entries with
  | nil =>
      rw [readOpcodes, except_pure_eq_ok, DescribesOpcodes, List.forall₂_nil_left_iff, eq_comm]
  | cons member rest ih =>
      rw [readOpcodes, DescribesOpcodes, List.forall₂_cons_left_iff]
      simp only [except_bind_eq_ok, except_pure_eq_ok, expectName_eq_ok_iff,
        descriptor_ofJson_eq_ok_iff, isOpcodeName_iff, ih]
      constructor
      · rintro ⟨opcode, ⟨key, name⟩, d, ⟨inner, raw, describes⟩, others, hothers, rfl⟩
        exact ⟨(opcode, d), _, ⟨key, name, inner, raw, describes⟩, hothers, rfl⟩
      · rintro ⟨entry, others, ⟨key, name, inner, raw, describes⟩, hothers, rfl⟩
        exact ⟨entry.1, ⟨key, name⟩, entry.2, ⟨inner, raw, describes⟩, others, hothers, rfl⟩

/-- **A manifest is read exactly if it has the format**, and as what it describes. -/
theorem manifest_ofJson_eq_ok_iff {m : Manifest} :
    Manifest.ofJson source v = .ok m ↔ Describes .accepted v m := by
  unfold Manifest.ofJson Describes
  simp only [except_bind_eq_ok, except_guard_eq_ok, except_pure_eq_ok, not_not,
    expectObject_eq_ok_iff, expectString_eq_ok_iff, readOpcodes_eq_ok_iff, isOne_iff]
  constructor
  · rintro ⟨members, rfl, _, required, version, hostModule, hmodule, inner, hinner, entries,
      describes, rfl⟩
    obtain ⟨versioned, opcodes, -⟩ := by
      simpa only [List.forall_mem_cons] using requireKeys_eq_ok_iff.mp required
    obtain ⟨given, hgiven⟩ := Option.ne_none_iff_exists'.mp versioned
    rw [hgiven] at version
    refine ⟨members, rfl, ⟨given, hgiven, version⟩, ?_, inner, (getD_lookup_iff opcodes).mp hinner,
      describes⟩
    cases h : member? members "host_module" with
    | none =>
        rw [h] at hmodule
        cases hmodule
        exact .inr ⟨rfl, rfl⟩
    | some given =>
        rw [h] at hmodule
        exact .inl (congrArg some hmodule)
  · rintro ⟨members, rfl, ⟨version, hversion, isVersion⟩, hmodule, inner, hinner, describes⟩
    have required : requireKeys source members ["schema_version", "opcodes"] = .ok () := by
      rw [requireKeys_eq_ok_iff]
      simp only [List.forall_mem_cons, hversion, hinner]
      simp
    refine ⟨members, rfl, (), required, ?_, m.hostModule, ?_, inner, ?_, m.opcodes, describes, rfl⟩
    · rw [hversion]
      exact isVersion
    · rcases hmodule with given | ⟨absent, default⟩
      · rw [given]
        rfl
      · rw [absent, default]
        rfl
    · rw [hinner]
      rfl

end Values

/-! ## The documented format -/

/-- The version is given as a truth value. -/
def SaysTrue (v : Value) : Prop :=
  ∃ members, v = .obj members ∧ member? members "schema_version" = some (.bool true)

/-- No name has a line feed. -/
def Unbroken (opcodes : List (String × Descriptor)) : Prop :=
  ∀ entry ∈ opcodes, '\n' ∉ entry.1.toList ∧ '\n' ∉ entry.2.name.toList

section Documented

variable {members : Members} {d : Descriptor} {opcodes : List (String × Descriptor)} {v : Value}
  {m : Manifest}

theorem documented_opcodeName_iff {name : String} :
    Lexicon.documented.opcodeName name ↔
      Lexicon.accepted.opcodeName name ∧ '\n' ∉ name.toList := isPlainName_iff (by decide)

theorem documented_hostName_iff {name : String} :
    Lexicon.documented.hostName name ↔
      Lexicon.accepted.hostName name ∧ '\n' ∉ name.toList := isPlainName_iff (by decide)

theorem documented_version_iff :
    Lexicon.documented.version v ↔ Lexicon.accepted.version v ∧ v ≠ .bool true := by
  constructor
  · intro one
    refine ⟨.inl one, ?_⟩
    rintro rfl
    rcases one with h | h <;> cases h
  · rintro ⟨one | truth, noTruth⟩
    · exact one
    · exact absurd truth noTruth

theorem documented_entry_iff :
    DescribesEntry .documented members d ↔
      DescribesEntry .accepted members d ∧ '\n' ∉ d.name.toList := by
  constructor
  · intro h
    obtain ⟨named, unbroken⟩ := documented_hostName_iff.mp h.hostName
    exact ⟨{ h with hostName := named }, unbroken⟩
  · rintro ⟨h, unbroken⟩
    exact { h with hostName := documented_hostName_iff.mpr ⟨h.hostName, unbroken⟩ }

theorem documented_opcodes_iff :
    DescribesOpcodes .documented members opcodes ↔
      DescribesOpcodes .accepted members opcodes ∧ Unbroken opcodes := by
  induction members generalizing opcodes with
  | nil =>
      simp only [DescribesOpcodes, List.forall₂_nil_left_iff]
      constructor
      · rintro rfl
        exact ⟨rfl, fun entry mem => absurd mem List.not_mem_nil⟩
      · exact And.left
  | cons member rest ih =>
      simp only [DescribesOpcodes, List.forall₂_cons_left_iff] at ih ⊢
      constructor
      · rintro ⟨entry, others, ⟨key, named, inner, raw, describes⟩, hothers, rfl⟩
        obtain ⟨describes, host⟩ := documented_entry_iff.mp describes
        obtain ⟨named, plain⟩ := documented_opcodeName_iff.mp named
        obtain ⟨hothers, unbroken⟩ := ih.mp hothers
        exact ⟨⟨entry, others, ⟨key, named, inner, raw, describes⟩, hothers, rfl⟩,
          List.forall_mem_cons.mpr ⟨⟨plain, host⟩, unbroken⟩⟩
      · rintro ⟨⟨entry, others, ⟨key, named, inner, raw, describes⟩, hothers, rfl⟩, unbroken⟩
        obtain ⟨⟨plain, host⟩, unbroken⟩ := List.forall_mem_cons.mp unbroken
        exact ⟨entry, others, ⟨key, documented_opcodeName_iff.mpr ⟨named, plain⟩, inner, raw,
          documented_entry_iff.mpr ⟨describes, host⟩⟩, ih.mpr ⟨hothers, unbroken⟩, rfl⟩

theorem describes_documented_iff :
    Describes .documented v m ↔ Describes .accepted v m ∧ ¬ SaysTrue v ∧ Unbroken m.opcodes := by
  constructor
  · rintro ⟨members, rfl, ⟨version, given, one⟩, hmodule, inner, opcodes, describes⟩
    obtain ⟨one, noTruth⟩ := documented_version_iff.mp one
    obtain ⟨describes, unbroken⟩ := documented_opcodes_iff.mp describes
    refine ⟨⟨members, rfl, ⟨version, given, one⟩, hmodule, inner, opcodes, describes⟩, ?_, unbroken⟩
    rintro ⟨_, ⟨rfl⟩, truth⟩
    rw [given] at truth
    exact noTruth (Option.some.inj truth)
  · rintro ⟨⟨members, rfl, ⟨version, given, one⟩, hmodule, inner, opcodes, describes⟩, noTruth,
      unbroken⟩
    refine ⟨members, rfl, ⟨version, given, documented_version_iff.mpr ⟨one, ?_⟩⟩, hmodule, inner,
      opcodes, documented_opcodes_iff.mpr ⟨describes, unbroken⟩⟩
    rintro rfl
    exact noTruth ⟨members, rfl, given⟩

end Documented

/-- **The reader accepts the format, which is the documented one but for two liberties**: the
version may be `true`, and a name may end in a line feed. What it does not accept it refuses with a
fault of the manifest. -/
theorem manifest_accepted_iff (source : String) (v : Value) :
    (∀ m, Manifest.ofJson source v = .ok m ↔ Describes .accepted v m) ∧
    (∀ m, Describes .documented v m ↔
      Manifest.ofJson source v = .ok m ∧ ¬ SaysTrue v ∧ Unbroken m.opcodes) ∧
    ((∃ m, Describes .accepted v m) ∨
      ∃ cause : ManifestError, Manifest.ofJson source v = .error cause) := by
  refine ⟨fun m => manifest_ofJson_eq_ok_iff, fun m => ?_, ?_⟩
  · rw [manifest_ofJson_eq_ok_iff]
    exact describes_documented_iff
  · cases h : Manifest.ofJson source v with
    | ok m => exact .inl ⟨m, manifest_ofJson_eq_ok_iff.mp h⟩
    | error cause => exact .inr ⟨cause, rfl⟩

/-- The version `true` is accepted, and the documented format has no such manifest. -/
theorem true_version_accepted :
    Manifest.ofJson "<manifest>" (.obj [("schema_version", .bool true), ("opcodes", .obj [])]) =
        .ok ⟨"ethereum", []⟩ ∧
      ∀ m, ¬ Describes .documented
        (.obj [("schema_version", .bool true), ("opcodes", .obj [])]) m := by
  refine ⟨rfl, fun m described => ?_⟩
  exact (describes_documented_iff.mp described).2.1 ⟨_, rfl, rfl⟩

end HostGlue.Interface
