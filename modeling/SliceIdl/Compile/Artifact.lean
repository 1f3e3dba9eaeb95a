import SliceIdl.Document.Json
import SliceIdl.Json.Printer
import SliceIdl.Load.Unit
import SliceIdl.Path.LogicalName
import SliceIdl.Workspace.Reader

/-!
# Artifacts

The compiled form of a unit and how it gets into a file tree. The directories on the way to it are
made if they are missing; a directory that is there already is kept. The compiler hands out all
writes together. Here they are assumed to run one after the other, in the order of the units, and
each whatever became of those before it.
-/

set_option autoImplicit false

namespace SliceIdl

structure Artifact where
  name : Text
  path : PathParts
  text : Text
  deriving DecidableEq, Repr

def Document.render? (d : Document) : Option Text :=
  d.toJson.render?

namespace Artifact

def ofUnit? (outDir : PathParts) (u : Text × LoadedUnit Document) : Option Artifact :=
  u.2.document.render?.map fun text => ⟨u.1, LogicalName.artifactPath outDir u.1, text⟩

def record (a : Artifact) : Record :=
  ⟨.info, "driver.emit".toList, a.name ++ " -> ".toList ++ a.path.toText⟩

end Artifact

structure WriteError where
  path : Text
  cause : FileError
  deriving DecidableEq, Repr

namespace Workspace

def keepDirectory (w : Workspace) (path : Text) : Except FileError Workspace :=
  match w.makeDirectory path with
  | .ok w' => .ok w'
  | .error e => if w.isDirectory path then .ok w else .error e

/-- Makes a directory and those above it; its names are given from the last to the first. -/
def ensureUpward (w : Workspace) (root : Text) : List Text → Workspace × Option WriteError
  | [] =>
    let path := PathParts.toText ⟨root, []⟩
    match w.keepDirectory path with
    | .ok w' => (w', none)
    | .error e => (w, some ⟨path, e⟩)
  | name :: above =>
    let path := PathParts.toText ⟨root, (name :: above).reverse⟩
    match w.keepDirectory path with
    | .ok w' => (w', none)
    | .error .notFound =>
      match ensureUpward w root above with
      | (w', some e) => (w', some e)
      | (w', none) =>
        match w'.keepDirectory path with
        | .ok w'' => (w'', none)
        | .error e => (w', some ⟨path, e⟩)
    | .error e => (w, some ⟨path, e⟩)

def ensureDirectory (w : Workspace) (p : PathParts) : Workspace × Option WriteError :=
  w.ensureUpward p.root p.parts.reverse

def writeArtifact (w : Workspace) (a : Artifact) : Workspace × Option WriteError :=
  match w.ensureDirectory a.path.parent with
  | (w', some e) => (w', some e)
  | (w', none) =>
    match w'.writeFile a.path.toText (encodeText a.text) with
    | .ok w'' => (w'', none)
    | .error e => (w', some ⟨a.path.toText, e⟩)

/-- Writes all artifacts and tells how each of them fared. That no two writes overlap, and that they
happen in the order of the list, is an assumption about how the writes are scheduled. -/
def writeArtifacts (w : Workspace) : List Artifact → Workspace × List (Option WriteError)
  | [] => (w, [])
  | a :: rest =>
    let (w', outcome) := w.writeArtifact a
    let (w'', outcomes) := w'.writeArtifacts rest
    (w'', outcome :: outcomes)

end Workspace

end SliceIdl
