import SliceIdl.Compile.Artifact
import SliceIdl.Compile.Inputs
import SliceIdl.Load.Closure
import SliceIdl.Load.Language
import SliceIdl.Load.Resolve
import SliceIdl.Workspace.Glob

/-!
# Compilations

A compilation selects its input files, names them, loads their closure and renders every unit. All
this only looks at the workspace; it ends in a plan or in an error. Only a plan is carried out: its
artifacts are written, and the first one that cannot be is the error.
-/

set_option autoImplicit false

namespace SliceIdl

structure CompileOptions where
  inputs : List Text
  excludes : List Text
  roots : List Text
  /-- The directory of the standard definitions, tried after all roots. -/
  builtinDir : Option Text
  outDir : Option PathParts
  deriving DecidableEq, Repr

def CompileOptions.absoluteRoots (o : CompileOptions) (cwd : Text) : List Text :=
  (o.roots ++ o.builtinDir.toList).map (Path.absolute cwd)

inductive CompileError where
  | load (e : LoadError)
  | write (e : WriteError)
  | fault (f : Fault)
  deriving DecidableEq, Repr

namespace CompileError

def ofLoad : LoadFailure → CompileError
  | .error e => load e
  | .fault f => fault f

/-- That a path cannot exist at all is no failure of writing. -/
def ofWrite (e : WriteError) : CompileError :=
  if e.cause = .nulInPath then fault (.ofValue e.cause.message) else write e

end CompileError

/-- A result or an error, with the log records that were left on the way to it. -/
structure Logged (α : Type) where
  records : List Record
  result : Except CompileError α

namespace Logged

variable {α β : Type}

def bind (x : Logged α) (f : α → Logged β) : Logged β :=
  match x.result with
  | .error e => ⟨x.records, .error e⟩
  | .ok a => ⟨x.records ++ (f a).records, (f a).result⟩

end Logged

/-- All that a compilation is about to write, and what it was made from. -/
structure Plan where
  inputs : List (Text × Text)
  units : List (Text × LoadedUnit Document)
  artifacts : List Artifact

namespace Compilation

def record (level : Level) (message : Text) : Record :=
  ⟨level, "driver.compile".toList, message⟩

def unexpandable : CompileError :=
  .fault (.ofValue FileError.nulInPath.message)

def select (w : Workspace) (patterns excludes : List Text) : Selection :=
  .ofPatterns (Glob.files w) (Path.absolute w.cwdPath) patterns excludes

/-- Expands the patterns for exclusion and then the others, up to the first one that cannot be
expanded. -/
def selectInputs (w : Workspace) (patterns excludes : List Text) : Logged (List Text) :=
  if !excludes.all Glob.isExpandable then ⟨[], .error unexpandable⟩
  else
    let selection := select w (patterns.takeWhile Glob.isExpandable) excludes
    ⟨selection.events.map InputEvent.record,
      if patterns.all Glob.isExpandable then .ok selection.paths else .error unexpandable⟩

def nameInputs (cwd : Text) (roots : List Text) : List Text → Logged (List (Text × Text))
  | [] => ⟨[], .ok []⟩
  | path :: paths =>
    match LogicalName.resolve (Path.absolute cwd path) roots with
    | .error e => ⟨[], .error (.load e)⟩
    | .ok name =>
      let named := nameInputs cwd roots paths
      ⟨record .debug (path ++ ": logical name ".toList ++ name) :: named.records,
        named.result.map ((path, name) :: ·)⟩

def loader (w : Workspace) (roots : List Text) : Loader Document where
  reader := w.reader
  language := Document.language
  roots := roots

def loadUnits (w : Workspace) (roots names : List Text) :
    Logged (List (Text × LoadedUnit Document)) :=
  let (result, events) := (loader w roots).loadClosure names
  let records := events.filterMap LoadEvent.record?
  match result with
  | .loaded units =>
    let summary := "loaded ".toList ++ Text.ofNat units.length ++ " slice file(s) from ".toList
      ++ Text.ofNat names.length ++ " input(s)".toList
    ⟨records ++ [record .info summary], .ok units⟩
  | .failed f => ⟨records, .error (.ofLoad f)⟩
  | .cancelled => ⟨records, .error (.fault ⟨"CancelledError".toList, []⟩)⟩

def renderUnits (outDir : PathParts) (units : List (Text × LoadedUnit Document)) :
    Logged (List Artifact) :=
  match units.mapM (Artifact.ofUnit? outDir) with
  | some artifacts => ⟨[], .ok artifacts⟩
  | none => ⟨[], .error (.fault (.ofValue (digitLimitMessage [])))⟩

def unplaceable : CompileError :=
  .fault ⟨"TypeError".toList, "expected str, bytes or os.PathLike object, not list".toList⟩

/-- Renders units for a directory; without one there must be no unit. -/
def artifactsOf (outDir : Option PathParts) (units : List (Text × LoadedUnit Document)) :
    Logged (List Artifact) :=
  match outDir with
  | some dir => renderUnits dir units
  | none => if units.isEmpty then ⟨[], .ok []⟩ else ⟨[], .error unplaceable⟩

def plan (w : Workspace) (o : CompileOptions) : Logged Plan :=
  let roots := o.absoluteRoots w.cwdPath
  (selectInputs w o.inputs o.excludes).bind fun paths =>
    (nameInputs w.cwdPath roots paths).bind fun inputs =>
      (loadUnits w roots (inputs.map Prod.snd)).bind fun units =>
        (artifactsOf o.outDir units).bind fun artifacts =>
          ⟨[], .ok ⟨inputs, units, artifacts⟩⟩

end Compilation

structure Compilation where
  workspace : Workspace
  records : List Record
  result : Except CompileError (List (Text × PathParts))

namespace Compilation

def emit (w : Workspace) (artifacts : List Artifact) : Compilation :=
  let (w', outcomes) := w.writeArtifacts artifacts
  match outcomes.findSome? id with
  | some e => ⟨w', [], .error (.ofWrite e)⟩
  | none => ⟨w', artifacts.map Artifact.record, .ok (artifacts.map fun a => (a.name, a.path))⟩

def run (w : Workspace) (o : CompileOptions) : Compilation :=
  let planned := plan w o
  match planned.result with
  | .error e => ⟨w, planned.records, .error e⟩
  | .ok plan =>
    let emitted := emit w plan.artifacts
    { emitted with records := planned.records ++ emitted.records }

end Compilation

end SliceIdl
