import SliceIdl.Command.Run
import SliceIdl.Workspace.Bundled

/-!
# The program

A command runs on a picture of the file system: of the current directory and of all directories that
its arguments name. What it has changed in the picture is then made true of the files. Only source
files are in the picture with their contents; of all others no content is ever looked at. The
bundled definitions are in the picture only.
-/

set_option autoImplicit false

namespace SliceIdl.Program

def pathOf (p : Place) : String :=
  String.ofList ('/' :: Text.joined ['/'] p)

def placeOf (path : Text) : Place :=
  (PathParts.ofText path).parts

/-- Adds what is at a place to a picture; `above` are the real paths of the directories that led to
it, none of which is entered again. -/
partial def addPlace (above : List String) (t : FileTree) (p : Place) : IO FileTree := do
  try
    let real ← IO.FS.realPath (pathOf p)
    if above.contains real.toString then return t
    if ← real.isDir then
      let mut t := if t.find? p = some .directory then t else t.plant [] p .directory
      for entry in ← real.readDir do
        t ← addPlace (real.toString :: above) t (p ++ [entry.fileName.toList])
      return t
    let isSource := (stem? (p.getLastD [])).isSome
    let bytes ← if isSource then IO.FS.readBinFile (pathOf p) else pure .empty
    return t.plant [] p (.file bytes)
  catch _ => return t

/-- The part of a pattern that leads to the directories in which it is expanded. -/
def fixedPart (pattern : Text) : Text :=
  if Glob.hasMagic pattern then Glob.fixedDirectory pattern else pattern

/-- The paths that a command looks at. -/
def lookedAt (s : Surroundings) (w : Workspace) (arguments : List Text) : List Text :=
  match CommandLine.ofArguments arguments with
  | .error _ => []
  | .ok c =>
    let o := Command.compileOptions s w c
    let paths := (o.inputs ++ o.excludes).map fixedPart ++ (o.outDir.map PathParts.toText).toList
    w.cwdPath :: o.absoluteRoots w.cwdPath ++ paths.map (Path.absolute w.cwdPath)

def applyChange (change : Place × Entry) : IO Unit :=
  match change.2 with
  | .directory => IO.FS.createDir (pathOf change.1)
  | .file bytes => IO.FS.writeBinFile (pathOf change.1) bytes

/-- What differs from an earlier tree, directories in front of what is in them. -/
def changes (before after : FileTree) : List (Place × Entry) :=
  let changed := after.entries.filter fun e => before.find? e.1 ≠ some e.2
  changed.mergeSort fun a b => a.1.length ≤ b.1.length

def bundledName : Text :=
  "slice".toList

end SliceIdl.Program

open SliceIdl SliceIdl.Program in
def main (arguments : List String) : IO UInt32 := do
  let cwd := (← IO.currentDir).toString.toList
  let application := PathParts.ofText (← IO.appPath).toString.toList
  let bundled := application.parent.extend [bundledName]
  let override ← IO.getEnv (String.ofList Surroundings.builtinVariable)
  let surroundings : Surroundings :=
    { environment := override.toList.map fun v => (Surroundings.builtinVariable, v.toList)
      bundledDir := bundled.toText }
  let arguments := arguments.map String.toList
  let empty : Workspace := ⟨Bundled.install .empty bundled.parts, placeOf cwd⟩
  let places := (lookedAt surroundings empty arguments).map placeOf
  let tree ← places.foldlM (addPlace []) empty.tree
  let result := Command.run surroundings (empty.withTree tree) arguments
  (changes tree result.workspace.tree).forM applyChange
  (← IO.getStdout).putStr (String.ofList result.output)
  (← IO.getStderr).putStr (String.ofList result.errors)
  match result.ending with
  | .exit code => return UInt32.ofNat code
  | .crash f =>
    (← IO.getStderr).putStrLn (String.ofList (f.kind ++ ": ".toList ++ f.message))
    return 1
