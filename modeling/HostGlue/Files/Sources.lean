import HostGlue.Document.Basic
import HostGlue.Files.Journal
import HostGlue.Interface.Manifest

/-!
# Reading the sources

A manifest is read from one file; fragments are read from the files of a directory whose names end
in `.wast`, each under its name without that ending.
-/

namespace HostGlue.Files

open Interface

/-- The manifest in the file at a path, or what is wrong with it. A file that is not there counts as
the manifest's fault. -/
def loadManifest (p : Path) : Action (Except ManifestError Manifest) := do
  try
    let text ← Action.readText p
    pure (Manifest.ofText p.text p.name text)
  catch
    | .os e => if e.code = .noEntry then pure (.error (.missingFile p.text)) else throw (.os e)
    | e => throw e

inductive FragmentError where
  | notFound (directory : Path)
  | unreadable (directory : Path) (cause : FileError)
  deriving Repr, DecidableEq

def FragmentError.message : FragmentError → String
  | .notFound directory => "Fragment directory not found: " ++ directory.text
  | .unreadable directory cause =>
    "Unable to read fragments from " ++ directory.text ++ ": " ++ cause.message

/-- The ending of a fragment's file name. -/
def fragmentEnding : List Char := ".wast".toList

/-- The name of the fragment in a file of the given name, if the file holds a fragment. -/
def fragmentName? (file : String) : Option String :=
  let name := file.toList
  if fragmentEnding.isSuffixOf name then
    some (String.ofList (name.take (name.length - fragmentEnding.length)))
  else none

/-- Reads the fragments among the files of a directory. -/
def readFragments (directory : Path) : List String → Action (List (Text × Text))
  | [] => return []
  | file :: rest =>
    match fragmentName? file with
    | none => readFragments directory rest
    | some name => do
      let text ← Action.readText (directory.child file)
      let others ← readFragments directory rest
      return (Text.ofString name, Text.ofString text) :: others

/-- The fragments in a directory, in order of the files' names, or why there are none. -/
def loadFragments (directory : Path) : Action (Except FragmentError Fragments) := do
  if ← Action.isDirectory directory then
    try
      let names ← Action.namesAt directory
      let found ← readFragments directory names
      pure (.ok (NameMap.ofList found))
    catch
      | .os e => pure (.error (.unreadable directory (.os e)))
      | .undecodable fault => pure (.error (.unreadable directory (.undecodable fault)))
      | e => throw e
  else return .error (.notFound directory)

end HostGlue.Files
