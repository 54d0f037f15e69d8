import HostGlue.Interface.Pairing

/-!
# Faults of a manifest

Each fault names the place where it was found, a path such as `manifest.json:CALL:input[2]`.
-/

namespace HostGlue.Interface

inductive ManifestError where
  | wrongType (place expected found : String)
  | missingKeys (place : String) (keys : List String)
  | hostName (place : String) (literal : String)
  | asyncNotBool (place : String)
  | unknownParamKind (place : String) (literal : String)
  | unknownReturnKind (place : String) (literal : String)
  | severalOutputs (place : String)
  | pairing (place : String) (fault : PairingFault)
  | schemaVersion (place : String)
  | opcodeName (place : String) (literal : String)
  | duplicateKey (literal : String)
  | missingFile (path : String)
  | malformed (path : String) (fault : String)
  deriving Repr, DecidableEq

namespace ManifestError

def message : ManifestError → String
  | wrongType place expected found => place ++ ": expected " ++ expected ++ ", got " ++ found
  | missingKeys place keys => place ++ ": missing required keys: " ++ ", ".intercalate keys
  | hostName place literal => place ++ ":name: invalid host function name " ++ literal
  | asyncNotBool place => place ++ ":async must be bool"
  | unknownParamKind place literal => place ++ ": unrecognized parameter kind " ++ literal
  | unknownReturnKind place literal => place ++ ": unrecognized return kind " ++ literal
  | severalOutputs place => place ++ ":output: at most one output kind is supported"
  | pairing place (.offsetWhileWaiting index) =>
    place ++ ":input[" ++ toString index ++ "]: offset follows an unpaired offset"
  | pairing place (.lengthWithoutOffset index) =>
    place ++ ":input[" ++ toString index ++ "]: length without a preceding offset"
  | schemaVersion place => place ++ ": schema_version must be 1"
  | opcodeName place literal => place ++ ": invalid opcode name " ++ literal
  | duplicateKey literal => "duplicate key " ++ literal
  | missingFile path => "Missing manifest: " ++ path
  | malformed path fault => "Invalid JSON in manifest: " ++ path ++ ": " ++ fault

/-- The fault is a kind that no parameter and no result has. -/
def isUnknownKind : ManifestError → Bool
  | unknownParamKind .. => true
  | unknownReturnKind .. => true
  | _ => false

end ManifestError

end HostGlue.Interface
