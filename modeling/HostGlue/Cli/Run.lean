import HostGlue.Cli.Options
import HostGlue.Files.Publication
import HostGlue.Files.Sources

/-!
# The command

One run of the command line over a file tree. The sources are read, both documents are generated,
and then they are checked or written. What goes wrong with the sources is reported and ends the run
with status 2; a check that finds problems ends it with status 1. Where something cannot be done
with a file and that is not the sources' fault, it stops the run without a status.
-/

namespace HostGlue.Cli

open Files Interface Machine

/-- What stops a run. -/
inductive Failure where
  | manifest (cause : ManifestError)
  | fragments (cause : FragmentError)
  | generation (cause : GenerationError)
  | file (cause : FileError)
  deriving Repr, DecidableEq

namespace Failure

def message : Failure → String
  | manifest cause => cause.message
  | fragments cause => cause.message
  | generation cause => cause.message
  | file cause => cause.message

/-- The run reports the failure and ends with a status. -/
def isReported : Failure → Bool
  | manifest _ => true
  | fragments _ => true
  | generation .keyedDifferently => true
  | generation (.compile (.operand (.lengthWithoutOffset _))) => true
  | generation _ => false
  | file _ => false

end Failure

/-- How a run ended: with a status, or stopped. -/
inductive Ending where
  | status (code : Nat)
  | stopped (cause : Failure)
  deriving Repr, DecidableEq

structure Outcome where
  ending : Ending
  stdout : String := ""
  stderr : String := ""
  journal : Journal

/-- The paths that a run works with. -/
structure Places where
  manifest : Option Path
  fragments : Path
  output : Path
  deriving Repr, DecidableEq

/-- The root without an option: the installation's own directory if it has a `wasm` directory, else
the working directory. -/
def defaultRoot (home : Path) : Action Path := do
  if ← Action.isDirectory (home.child "wasm") then return home
  else return ⟨.root, ← Action.workingDirectory⟩

/-- The root, which is made absolute. -/
def chooseRoot (o : Options) (home : Path) : Action Path :=
  if o.root = "" then defaultRoot home else Action.resolve (Path.ofString o.root)

/-- The path that an option names, or another one without the option. -/
def given (text : String) (other : Path) : Path :=
  if text = "" then other else Path.ofString text

/-- The paths that the options name under a root. -/
def Places.under (o : Options) (root : Path) : Places where
  manifest := if o.manifest = "" then none else some (Path.ofString o.manifest)
  fragments := given o.fragmentDir (root.child "wasm")
  output := given o.outDir (root.child "wasm")

/-- The paths that the options name. -/
def Places.ofOptions (o : Options) (home : Path) : Action Places :=
  return .under o (← chooseRoot o home)

/-- The files that a run reads, tests or writes. Besides these it reads the fragments' directory. -/
def Places.files (places : Places) : List Path :=
  let outputs := Mode.all.map fun mode => places.output.child (outputName mode)
  places.manifest.toList ++ outputs ++ outputs.map (·.withEnding ".tmp")

/-- The part of a run that prepares the documents. -/
abbrev Preparing := ExceptT Failure (StateM Journal)

/-- What an action answers. What it could not do with a file stops the run, and so does the fault
that it may have found instead. -/
def fetch {ε α : Type} (fault : ε → Failure) (action : Action (Except ε α)) : Preparing α := do
  match ← action.adapt .file with
  | .ok x => return x
  | .error e => throw (fault e)

/-- The manifest to use. The bundled one comes with the installation, which is taken to be whole. -/
def chooseManifest : Option Path → Preparing Manifest
  | none => return bundled
  | some p => fetch .manifest (loadManifest p)

/-- What a run has before it checks or writes: the documents, and the line about them. -/
structure Prepared where
  docs : Documents
  summary : String

/-- The documents of a manifest and fragments, and the line about them. -/
def generate (o : Options) (m : Manifest) (fragments : Fragments) :
    Except GenerationError Prepared := do
  let docs ← generateDocuments m fragments {} (some (Text.ofString o.hostModule))
  let summary := "wastgen: " ++ toString m.opcodes.length ++ " generated entries, " ++
    toString fragments.entries.length ++ " fragments, " ++
    toString docs.sync.entries.length ++ " entries per document\n"
  return { docs, summary }

/-- Reads the sources and generates the documents. -/
def prepare (o : Options) (places : Places) : Preparing Prepared := do
  let m ← chooseManifest places.manifest
  let fragments ← fetch .fragments (loadFragments places.fragments)
  match generate o m fragments with
  | .ok prepared => return prepared
  | .error cause => throw (.generation cause)

/-- The end of a run that failed. -/
def fail (cause : Failure) (stderr : String) (journal : Journal) : Outcome :=
  if cause.isReported then
    { ending := .status 2
      stderr := stderr ++ "wastgen: ERROR: " ++ cause.message ++ "\n"
      journal }
  else { ending := .stopped cause, stderr, journal }

/-- Lines under the program's name. -/
def report (lines : List String) : String :=
  String.join (lines.map fun line => "wastgen: " ++ line ++ "\n")

/-- Checks the documents in the output directory. -/
def runCheck (prepared : Prepared) (places : Places) (stderr : String) (j : Journal) : Outcome :=
  match (checkDocuments prepared.docs places.output).run j with
  | (.ok problems, journal) =>
    { ending := .status (if problems.isEmpty then 0 else 1)
      stderr := stderr ++ report (problems.map (·.message))
      journal }
  | (.error cause, journal) => fail (.file cause) stderr journal

/-- Writes the documents into the output directory. -/
def runWrite (o : Options) (prepared : Prepared) (places : Places) (stderr : String) (j : Journal) :
    Outcome :=
  match (writeDocuments prepared.docs places.output).run j with
  | (.ok paths, journal) =>
    let lines := if o.verbose then report (paths.map fun p => "wrote " ++ p.text) else ""
    { ending := .status 0, stderr := stderr ++ lines, journal }
  | (.error cause, journal) => fail (.file cause) stderr journal

/-- Checks or writes what has been prepared. -/
def runPrepared (o : Options) (prepared : Prepared) (places : Places) (j : Journal) : Outcome :=
  let stderr := if o.verbose then prepared.summary else ""
  if o.check then runCheck prepared places stderr j else runWrite o prepared places stderr j

/-- A run with options that were understood. -/
def runOptions (home : Path) (o : Options) (j : Journal) : Outcome :=
  match (Places.ofOptions o home).run j with
  | (.error cause, journal) => fail (.file cause) "" journal
  | (.ok places, journal) =>
    match (prepare o places).run journal with
    | (.error cause, journal) => fail cause "" journal
    | (.ok prepared, journal) => runPrepared o prepared places journal

/-- One run of the command, installed at `home`. The calls that it makes meet the faults. -/
def run (home : Path) (arguments : List String) (t : Tree)
    (faults : List (Option Fault) := []) : Outcome :=
  match Request.ofArguments arguments with
  | .error e =>
    { ending := .status 2
      stderr := usage ++ "wastgen: error: " ++ e.message ++ "\n"
      journal := { tree := t, faults } }
  | .ok .help => { ending := .status 0, stdout := help, journal := { tree := t, faults } }
  | .ok (.run o) => runOptions home o { tree := t, faults }

end HostGlue.Cli
