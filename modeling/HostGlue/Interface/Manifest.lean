import HostGlue.Interface.Descriptor
import HostGlue.Interface.ManifestError
import HostGlue.Json.Reader

/-!
# Reading a manifest

A manifest is a JSON object with a schema version, an optional host module and an object of opcodes,
each of which has a descriptor. The members are checked in a fixed order and the first fault is
reported, so a manifest with several faults always gives the same message.

A name may end in one line feed, which counts neither for nor against it.
-/

namespace HostGlue.Interface

open Json

/-- A letter of the alphabet or an underscore. -/
def isNameStart (c : Char) : Bool := c.isAlpha || c = '_'

/-- Only characters that are allowed, up to the end or to a final line feed. -/
def isNameTail (allowed : Char → Bool) : List Char → Bool
  | [] => true
  | ['\n'] => true
  | c :: rest => allowed c && isNameTail allowed rest

def isName (allowed : Char → Bool) : List Char → Bool
  | [] => false
  | c :: rest => isNameStart c && isNameTail allowed rest

/-- Letters, digits and underscores, a digit not in front. -/
def isOpcodeName (s : String) : Bool := isName (fun c => isNameStart c || c.isDigit) s.toList

/-- As an opcode name, with dots allowed behind the first character. -/
def isHostName (s : String) : Bool :=
  isName (fun c => isNameStart c || c.isDigit || c = '.') s.toList

abbrev Checked := Except ManifestError

def expectObject (place : String) : Value → Checked Members
  | .obj members => .ok members
  | v => .error (.wrongType place "dict" v.typeName)

def expectList (place : String) : Value → Checked (List Value)
  | .arr items => .ok items
  | v => .error (.wrongType place "list" v.typeName)

def expectString (place : String) : Value → Checked Text
  | .str s => .ok s
  | v => .error (.wrongType place "str" v.typeName)

/-- Accepts a text as a name of the given kind. -/
def expectName (valid : String → Bool) (fault : ManifestError) (given : Text) : Checked String :=
  match given.string? with
  | some name => if valid name then .ok name else .error fault
  | none => .error fault

/-- Accepts members among which every required key has a value. -/
def requireKeys (place : String) (members : Members) (keys : List String) : Checked Unit :=
  let missing := keys.filter fun key => (member? members key).isNone
  if missing.isEmpty then .ok () else .error (.missingKeys place missing)

def paramKind (place : String) (v : Value) : Checked ParamKind :=
  match v with
  | .str s => match s.string?.bind ParamKind.ofName? with
    | some kind => .ok kind
    | none => .error (.unknownParamKind place v.literal)
  | _ => .error (.unknownParamKind place v.literal)

def returnKind (place : String) (v : Value) : Checked ReturnKind :=
  match v with
  | .str s => match s.string?.bind ReturnKind.ofName? with
    | some kind => .ok kind
    | none => .error (.unknownReturnKind place v.literal)
  | _ => .error (.unknownReturnKind place v.literal)

/-- Reads the items from the given index on, each at its own place. -/
def readEach {α : Type} (place : String) (read : String → Value → Checked α) (index : Nat) :
    List Value → Checked (List α)
  | [] => return []
  | v :: rest => do
    let first ← read (place ++ "[" ++ toString index ++ "]") v
    let others ← readEach place read (index + 1) rest
    return first :: others

/-- The truth value under `async`, which is false if absent. -/
def readAsync (place : String) (members : Members) : Checked Bool :=
  match member? members "async" with
  | none => .ok false
  | some (.bool b) => .ok b
  | some _ => .error (.asyncNotBool place)

/-- The text under `note`, which may be absent or null. -/
def readNote (place : String) (members : Members) : Checked (Option Text) :=
  match member? members "note" with
  | none => .ok none
  | some .null => .ok none
  | some v => some <$> expectString (place ++ ":note") v

/-- The descriptor of an opcode. -/
def Descriptor.ofJson (source opcode : String) (raw : Value) : Checked Descriptor := do
  let place := source ++ ":" ++ opcode
  let members ← expectObject place raw
  requireKeys place members ["name", "input", "output"]
  let given ← expectString (place ++ ":name") ((member? members "name").getD .null)
  let name ← expectName isHostName (.hostName place (Text.Literal.quote given)) given
  let isAsync ← readAsync place members
  let inputs ← expectList (place ++ ":input") ((member? members "input").getD .null)
  let outputs ← expectList (place ++ ":output") ((member? members "output").getD .null)
  let inputs ← readEach (place ++ ":input") paramKind 0 inputs
  let outputs ← readEach (place ++ ":output") returnKind 0 outputs
  if 1 < outputs.length then
    throw (.severalOutputs place)
  (checkPairing inputs).mapError (.pairing place)
  let note ← readNote place members
  return { name, isAsync, inputs, outputs, note }

/-- The entries of the opcodes, in their order. -/
def readOpcodes (source : String) : Members → Checked (List (String × Descriptor))
  | [] => return []
  | (given, raw) :: rest => do
    let opcode ← expectName isOpcodeName (.opcodeName source (Text.Literal.quote given)) given
    let descriptor ← Descriptor.ofJson source opcode raw
    let others ← readOpcodes source rest
    return (opcode, descriptor) :: others

/-- The manifest that a JSON value describes. -/
def Manifest.ofJson (source : String) (data : Value) : Checked Manifest := do
  let members ← expectObject source data
  requireKeys source members ["schema_version", "opcodes"]
  if ¬ ((member? members "schema_version").getD .null).isOne then
    throw (.schemaVersion source)
  let hostModule ← expectString (source ++ ":host_module")
    ((member? members "host_module").getD (.str (Text.ofString "ethereum")))
  let opcodes ← expectObject (source ++ ":opcodes") ((member? members "opcodes").getD .null)
  let opcodes ← readOpcodes source opcodes
  return { hostModule, opcodes }

/-- The fault of a manifest file whose text is no JSON or repeats a key. -/
def ManifestError.ofRead (path : String) : ReadError → ManifestError
  | .malformed fault => .malformed path fault.message
  | .duplicateName name => .duplicateKey (Text.Literal.quote name)

/-- The manifest that a file's text describes. Faults in the text name the whole path, faults in the
value the file's name. -/
def Manifest.ofText (path file : String) (text : Text) : Checked Manifest := do
  let data ← (Json.read distinct text).mapError (ManifestError.ofRead path)
  Manifest.ofJson file data

end HostGlue.Interface
