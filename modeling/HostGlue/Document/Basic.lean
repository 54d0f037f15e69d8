import HostGlue.Json.Canonical
import HostGlue.Marshal.Function
import HostGlue.NameMap

/-!
# Documents

A document gives each name an artifact. Written as JSON it lists its names in the order of their
code points, whatever the order of insertion, so equal documents have equal texts. Hand-written
fragments are merged over a document: a fragment replaces the artifact of its name and brings no
import.
-/

namespace HostGlue

abbrev Document := NameMap Artifact

/-- Hand-written code by name. -/
abbrev Fragments := NameMap Text

/-- The members of an artifact with the texts of their values, in order of their names. -/
def Artifact.members (a : Artifact) : List (Text × String) :=
  let code := (↑"wast", Json.Canonical.string a.code)
  match a.imports with
  | some imports => [(↑"imports", Json.Canonical.string imports), code]
  | none => [code]

namespace Document

/-- The document's text. -/
def text (doc : Document) : String :=
  let members := doc.sorted.map fun e => (e.1, Json.Canonical.object 1 e.2.members)
  Json.Canonical.object 0 members ++ "\n"

/-- The document under the fragments. New names come in the order of their code points. -/
def merge (doc : Document) (fragments : Fragments) : Document :=
  doc.insertAll (fragments.sorted.map fun f => (f.1, { code := f.2 }))

end Document

end HostGlue
