import HostGlue.Document.Generation
import HostGlue.Files.Journal

/-!
# Writing and checking documents

The documents of both modes lie side by side in one directory. Writing replaces them one after the
other, the synchronous one first; checking compares the files with the documents and reports the
files that are missing or differ.
-/

namespace HostGlue.Files

open Interface

def outputName : Mode → String
  | .sync => "wast.json"
  | .async => "wast-async.json"

/-- Writes both documents into a directory and answers their paths. -/
def writeDocuments (docs : Documents) (directory : Path) : Action (List Path) :=
  Mode.all.mapM fun mode => do
    let p := directory.child (outputName mode)
    Action.writeText p (docs.get mode).text
    return p

inductive Problem where
  | missing (p : Path)
  | outOfDate (p : Path)
  deriving Repr, DecidableEq

def Problem.message : Problem → String
  | .missing p => "missing: " ++ p.text
  | .outOfDate p => "out of date: " ++ p.text

/-- The problem of one document, if it has one. -/
def checkDocument (docs : Documents) (directory : Path) (mode : Mode) :
    Action (Option Problem) := do
  let p := directory.child (outputName mode)
  if ← Action.contains p then
    let text ← Action.readText p
    return if text = (docs.get mode).text then none else some (.outOfDate p)
  else return some (.missing p)

/-- The problems of both documents. -/
def checkDocuments (docs : Documents) (directory : Path) : Action (List Problem) := do
  let found ← Mode.all.mapM (checkDocument docs directory)
  return found.filterMap id

end HostGlue.Files
