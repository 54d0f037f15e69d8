import HostGlue.Files.Tree

/-!
# Actions on a tree

An action asks a tree and changes it in single edits, and may fail between two of these calls; the
edits done before stay done. The journal keeps every edit with the tree before it, so that it can be
asked what a program that stops in the middle leaves behind, and so that the edits can be done again
elsewhere.

A call fails if the tree does not allow it. It may also fail for a reason that is not in the tree,
such as a full disk, a missing permission or a name that is too long; the journal can be given the
faults of that kind that an action is to meet, one place for each call.
-/

namespace HostGlue.Files

/-- One step of the file system, by the paths it is asked for. -/
inductive Edit where
  | makeDirectory (p : Path)
  | openForWriting (p : Path)
  | writeBytes (p : Path) (bytes : List UInt8)
  | replace (p target : Path)
  deriving Repr, DecidableEq

namespace Edit

/-- The tree after an edit. -/
def apply : Edit → Tree → Except OsCode Tree
  | makeDirectory p, t => t.makeDirectory p
  | openForWriting p, t => t.openForWriting p
  | writeBytes p bytes, t => t.writeBytes p bytes
  | replace p target, t => t.replace p target

/-- The paths that the system is told. Into an open file it writes without a path. -/
def told : Edit → List Path
  | makeDirectory p => [p]
  | openForWriting p => [p]
  | writeBytes _ _ => []
  | replace p target => [p, target]

end Edit

/-- A failure for a reason that is not in the tree. -/
structure Fault where
  code : OsCode
  /-- How many bytes a write still puts into the file. -/
  written : Nat := 0
  deriving Repr, DecidableEq

/-- What is done of an edit that meets the fault. -/
def Edit.remnant (fault : Fault) : Edit → Option Edit
  | writeBytes p bytes => some (.writeBytes p (bytes.take fault.written))
  | _ => none

structure Journal where
  tree : Tree
  /-- The edits with the trees before them, the latest first. -/
  past : List (Edit × Tree) := []
  /-- For each call to come, the fault that it meets, if any. -/
  faults : List (Option Fault) := []

namespace Journal

/-- The edits in the order in which they were done. -/
def edits (j : Journal) : List Edit := (j.past.map (·.1)).reverse

/-- The fault that the next call meets. -/
def fault (j : Journal) : Option Fault := j.faults.head?.join

/-- The journal behind a call that did nothing. -/
def later (j : Journal) : Journal := { j with faults := j.faults.tail }

/-- Does an edit and notes it. -/
def note (j : Journal) (edit : Edit) : Except OsCode Journal :=
  (edit.apply j.tree).map fun tree => { j with tree, past := (edit, j.tree) :: j.past }

/-- Does what is left of an edit that met a fault. -/
def salvage (j : Journal) (fault : Fault) (edit : Edit) : Journal :=
  match edit.remnant fault with
  | none => j
  | some rest => match j.note rest with
    | .ok j' => j'
    | .error _ => j

end Journal

abbrev Action := ExceptT FileError (StateM Journal)

namespace Action

/-- One call of the system, unless a path has a null character. `whole` is what the call does,
`partly` what it still does when it meets a fault. -/
def call {α : Type} (paths : List Path) (whole : Journal → Except OsCode (α × Journal))
    (partly : Fault → Journal → Journal) : Action α := do
  if paths.any Path.hasNull then throw .nullCharacter
  let journal ← get
  match journal.fault with
  | some fault =>
    set (partly fault journal.later)
    throw (.os ⟨fault.code, paths⟩)
  | none => match whole journal.later with
    | .ok (answer, done) =>
      set done
      return answer
    | .error code =>
      set journal.later
      throw (.os ⟨code, paths⟩)

/-- Asks the tree. -/
def ask {α : Type} (paths : List Path) (look : Tree → Except OsCode α) : Action α :=
  call paths (fun j => (look j.tree).map (·, j)) fun _ j => j

/-- Does an edit, unless a fault prevents it. -/
def step (edit : Edit) : Action Unit :=
  call edit.told (fun j => (j.note edit).map ((), ·)) fun fault j => j.salvage fault edit

/-! ## Reading -/

/-- What stands where a path leads, if the system says that something does. -/
def probe (p : Path) : Action (Option Item) := do
  try
    let item ← ask [p] (·.stat p)
    pure (some item)
  catch
    | .os e => if e.code.meansAbsent then pure none else throw (.os e)
    | .nullCharacter => pure none
    | e => throw e

def isDirectory (p : Path) : Action Bool := return (← probe p) = some .directory

def contains (p : Path) : Action Bool := return (← probe p).isSome

/-- The names in a directory. -/
def namesAt (p : Path) : Action (List String) := ask [p] (·.namesAt p)

/-- The text that bytes stand for, as it is read. -/
def asText (bytes : List UInt8) : Action String :=
  match Text.Utf8.decode bytes with
  | .ok text => pure (Text.asRead text)
  | .error fault => throw (.undecodable fault)

/-- The text of the file at a path. The file is opened first and read then. -/
def readText (p : Path) : Action String := do
  let held ← ask [p] (·.bytesAt p)
  let bytes ← ask [] fun _ => .ok held
  asText bytes

/-- The working directory, which has to be there. -/
def workingDirectory : Action Location :=
  ask [] fun t => match t.lookup t.workingDirectory with
    | some .directory => .ok t.workingDirectory
    | _ => .error .noEntry

/-- What a relative path needs. -/
def requireStart (p : Path) : Action Unit :=
  if p.anchor = .relative then discard workingDirectory else pure ()

/-- Refuses a path that leads around in a circle. What else stands there does not matter. -/
def refuseCircle (p : Path) : Action Unit := do
  try
    let _ ← ask [p] (·.stat p)
    pure ()
  catch
    | .os e => if e.code = .tooManyLinks then throw (.linkLoop p) else pure ()
    | e => throw e

/-- The path without links. A call may be refused where the path starts and where it ends; the links
on the way are read as they stand. -/
def resolve (p : Path) : Action Path :=
  if p.hasNull then throw .nullCharacter
  else do
    let resolved := (← get).tree.resolve p
    requireStart p
    refuseCircle resolved
    return resolved

/-! ## Writing -/

/-- Makes a directory; where there is one already nothing happens. -/
def makeDirectory (p : Path) : Action Unit := do
  try step (.makeDirectory p)
  catch
    | .os e =>
      if e.code = .noEntry then throw (.os e)
      else if ← isDirectory p then pure ()
      else throw (.os e)
    | e => throw e

/-- Makes a directory and the missing ones above it. The components are given from the last to the
first. -/
def makeDirectoriesUp (anchor : Anchor) : List String → Action Unit
  | [] => makeDirectory ⟨anchor, []⟩
  | part :: above => do
    let p : Path := ⟨anchor, (part :: above).reverse⟩
    try makeDirectory p
    catch
      | .os e =>
        if e.code = .noEntry then
          makeDirectoriesUp anchor above
          makeDirectory p
        else throw (.os e)
      | e => throw e

/-- Makes a directory and the missing ones above it. -/
def makeDirectories (p : Path) : Action Unit := makeDirectoriesUp p.anchor p.parts.reverse

/-- Writes a text at a path. It is written to a draft next to the path, which is moved to the path
when it is complete. -/
def writeText (p : Path) (text : String) : Action Unit := do
  makeDirectories p.parent
  let draft := p.withEnding ".tmp"
  step (.openForWriting draft)
  step (.writeBytes draft (Text.Utf8.encode text))
  step (.replace draft p)

end Action

end HostGlue.Files
