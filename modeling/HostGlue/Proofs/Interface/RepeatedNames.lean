import HostGlue.Interface.Manifest
import HostGlue.Proofs.Json.Duplicates
import Mathlib.Tactic.ByContra

/-!
# Repeated names in a manifest

A repeated name is a fault of the text. It is found while the text is read, before anything is asked
of the value, and no check of the value reports one. So where a manifest is refused for a name, it
repeats in an object of the text, and if others repeat too that object is the first to be closed.
-/

namespace HostGlue.Interface

open Json

/-! ## Faults of the value -/

/-- The fault is one of the value, and not of the text or of the file. -/
def ManifestError.isOfValue : ManifestError → Bool
  | .duplicateKey _ => false
  | .missingFile _ => false
  | .malformed .. => false
  | _ => true

/-- The check fails only by faults of the value. -/
def ChecksValue {α : Type} (x : Checked α) : Prop := ∀ e, x = .error e → e.isOfValue = true

namespace ChecksValue

variable {α β : Type} {x : Checked α}

theorem ok {a : α} : ChecksValue (.ok a : Checked α) := nofun

theorem error {e : ManifestError} (h : e.isOfValue = true) :
    ChecksValue (.error e : Checked α) := by
  rintro _ ⟨⟩
  exact h

theorem bind {f : α → Checked β} (hx : ChecksValue x) (hf : ∀ a, ChecksValue (f a)) :
    ChecksValue (x >>= f) := by
  cases x with
  | ok a => exact hf a
  | error e => exact .error (hx e rfl)

theorem map {f : α → β} (hx : ChecksValue x) : ChecksValue (f <$> x) := by
  cases x with
  | ok a => exact .ok
  | error e => exact .error (hx e rfl)

theorem guard {c : Prop} [Decidable c] {e : ManifestError} {f : PUnit → Checked α}
    (he : e.isOfValue = true) (hx : ChecksValue x) :
    ChecksValue (if c then throw e >>= f else x) := by
  split
  · exact .error he
  · exact hx

end ChecksValue

section Checks

variable {place source opcode : String} {v : Value} {members : Members}

theorem expectObject_checksValue : ChecksValue (expectObject place v) := by
  unfold expectObject
  split
  · exact .ok
  · exact .error rfl

theorem expectList_checksValue : ChecksValue (expectList place v) := by
  unfold expectList
  split
  · exact .ok
  · exact .error rfl

theorem expectString_checksValue : ChecksValue (expectString place v) := by
  unfold expectString
  split
  · exact .ok
  · exact .error rfl

theorem expectName_checksValue {valid : String → Bool} {fault : ManifestError} {given : Text}
    (h : fault.isOfValue = true) : ChecksValue (expectName valid fault given) := by
  unfold expectName
  split
  · split
    · exact .ok
    · exact .error h
  · exact .error h

theorem requireKeys_checksValue {keys : List String} :
    ChecksValue (requireKeys place members keys) := by
  unfold requireKeys
  dsimp only
  split
  · exact .ok
  · exact .error rfl

theorem paramKind_checksValue : ChecksValue (paramKind place v) := by
  unfold paramKind
  split
  · split
    · exact .ok
    · exact .error rfl
  · exact .error rfl

theorem returnKind_checksValue : ChecksValue (returnKind place v) := by
  unfold returnKind
  split
  · split
    · exact .ok
    · exact .error rfl
  · exact .error rfl

theorem readEach_checksValue {α : Type} {read : String → Value → Checked α}
    (h : ∀ place v, ChecksValue (read place v)) {index : Nat} {items : List Value} :
    ChecksValue (readEach place read index items) := by
  induction items generalizing index with
  | nil => exact .ok
  | cons v rest ih => exact (h _ v).bind fun _ => ih.bind fun _ => .ok

theorem readAsync_checksValue : ChecksValue (readAsync place members) := by
  unfold readAsync
  split
  · exact .ok
  · exact .ok
  · exact .error rfl

theorem readNote_checksValue : ChecksValue (readNote place members) := by
  unfold readNote
  split
  · exact .ok
  · exact .ok
  · exact expectString_checksValue.map

theorem pairing_checksValue {x : Except PairingFault Unit} :
    ChecksValue (x.mapError (ManifestError.pairing place)) := by
  cases x with
  | ok a => exact .ok
  | error fault => exact .error rfl

theorem descriptor_ofJson_checksValue : ChecksValue (Descriptor.ofJson source opcode v) := by
  unfold Descriptor.ofJson
  refine expectObject_checksValue.bind fun members => ?_
  refine requireKeys_checksValue.bind fun _ => expectString_checksValue.bind fun given => ?_
  refine (expectName_checksValue rfl).bind fun name => ?_
  refine readAsync_checksValue.bind fun isAsync => ?_
  refine expectList_checksValue.bind fun inputs => expectList_checksValue.bind fun outputs => ?_
  refine (readEach_checksValue fun _ _ => paramKind_checksValue).bind fun inputs => ?_
  refine (readEach_checksValue fun _ _ => returnKind_checksValue).bind fun outputs => ?_
  refine .guard rfl ?_
  exact pairing_checksValue.bind fun _ => readNote_checksValue.bind fun _ => .ok

theorem readOpcodes_checksValue : ChecksValue (readOpcodes source members) := by
  induction members with
  | nil => exact .ok
  | cons m rest ih =>
      refine (expectName_checksValue rfl).bind fun opcode => ?_
      exact descriptor_ofJson_checksValue.bind fun _ => ih.bind fun _ => .ok

theorem manifest_ofJson_checksValue : ChecksValue (Manifest.ofJson source v) := by
  unfold Manifest.ofJson
  refine expectObject_checksValue.bind fun members => requireKeys_checksValue.bind fun _ => ?_
  refine .guard rfl ?_
  refine expectString_checksValue.bind fun hostModule => ?_
  refine expectObject_checksValue.bind fun opcodes => ?_
  exact readOpcodes_checksValue.bind fun _ => .ok

end Checks

/-! ## Faults of the text -/

theorem ofText_of_refused {path file : String} {text : Text} {v : Value} {name : Text}
    (derived : JsonText text v) (repeats : refused? v.closed = some name) :
    Manifest.ofText path file text = .error (.duplicateKey (Text.Literal.quote name)) := by
  have read := read_distinct_eq derived
  rw [repeats] at read
  rw [Manifest.ofText, read]
  rfl

theorem ofText_of_settled {path file : String} {text : Text} {v : Value}
    (derived : JsonText text v) (settled : refused? v.closed = none) :
    Manifest.ofText path file text = Manifest.ofJson file v := by
  have read := read_distinct_eq derived
  rw [settled] at read
  rw [Manifest.ofText, read]
  rfl

/-- **Repeated names are refused at every depth, and nothing else is lost.** Take the text of a
JSON value. It is refused for a name exactly if in one of its objects two members have the same
name. The name is then that of the first member which repeats one, in the first object to be closed
where one does. And where no name repeats, the text is read as its value, every member in its
place. -/
theorem repeated_names_refused {path file : String} {text : Text} {v : Value}
    (derived : JsonText text v) :
    ((∃ literal, Manifest.ofText path file text = .error (.duplicateKey literal)) ↔
      ∃ members ∈ v.closed, ¬ (members.map (·.1)).Nodup) ∧
    (∀ before members after name, v.closed = before ++ members :: after →
      (∀ earlier ∈ before, (earlier.map (·.1)).Nodup) → FirstRepeated name members →
      Manifest.ofText path file text = .error (.duplicateKey (Text.Literal.quote name))) ∧
    ((∀ members ∈ v.closed, (members.map (·.1)).Nodup) →
      Json.read distinct text = .ok v ∧
        Manifest.ofText path file text = Manifest.ofJson file v) := by
  refine ⟨⟨?_, ?_⟩, fun before members after name split distinctBefore first => ?_, fun apart => ?_⟩
  · rintro ⟨literal, refused⟩
    by_contra! apart
    rw [ofText_of_settled derived (refused?_eq_none_iff.mpr apart)] at refused
    cases manifest_ofJson_checksValue _ refused
  · rintro ⟨members, mem, repeats⟩
    cases settled : refused? v.closed with
    | none => exact absurd (refused?_eq_none_iff.mp settled members mem) repeats
    | some name => exact ⟨_, ofText_of_refused derived settled⟩
  · exact ofText_of_refused derived
      (refused?_eq_some_iff.mpr ⟨before, members, after, split, distinctBefore, first⟩)
  · have settled := refused?_eq_none_iff.mpr apart
    have read := read_distinct_eq derived
    rw [settled] at read
    exact ⟨read, ofText_of_settled derived settled⟩

/-- Names repeat in an object, and in another one in a list in it, where two surrogates are two
names. -/
def nestedText : Text :=
  "\x7b\"b\": [\x7b\"\\ud800\": 1, \"\\ud801\": 2, \"\\uD800\": 3\x7d], \"b\": 4\x7d"

def nestedInner : Members :=
  [([.surrogate 0], .int 1), ([.surrogate 1], .int 2), ([.surrogate 0], .int 3)]

def nestedOuter : Members := [(↑"b", .arr [.obj nestedInner]), (↑"b", .int 4)]

theorem nestedText_derived : JsonText nestedText (.obj nestedOuter) :=
  read_asWritten_iff.mp (by decide +kernel)

/-- The inner object is closed first, so its name is refused. -/
theorem nestedText_refused : JsonText nestedText (.obj nestedOuter) ∧
    (Value.obj nestedOuter).closed = [nestedInner, nestedOuter] ∧
    Manifest.ofText "m.json" "m.json" nestedText = .error (.duplicateKey "'\\ud800'") := by
  have first : FirstRepeated [.surrogate 0] nestedInner :=
    ⟨[_, _], _, [], rfl, by decide, by decide⟩
  have quoted : Text.Literal.quote [.surrogate 0] = "'\\ud800'" := by decide +kernel
  obtain ⟨-, refused, -⟩ := @repeated_names_refused "m.json" "m.json" _ _ nestedText_derived
  rw [← quoted]
  exact ⟨nestedText_derived, rfl, refused [] nestedInner [nestedOuter] _ rfl (by simp) first⟩

end HostGlue.Interface
