import SliceIdl.Path.Basic

/-!
# File trees

A file tree says which places hold directories and which hold files. A place is the list of the
names that lead to it from the root, and the root is always a directory. A path is followed name by
name: it must not pass through a file, and `..` leads back from the directory that was reached.
-/

set_option autoImplicit false

namespace SliceIdl

abbrev Place := List Text

inductive Entry where
  | directory
  | file (bytes : ByteArray)

instance : DecidableEq Entry
  | .directory, .directory => isTrue rfl
  | .directory, .file _ | .file _, .directory => isFalse (by simp)
  | .file a, .file b =>
    if h : a.data.toList = b.data.toList then
      isTrue (by rw [ByteArray.ext (Array.toList_inj.1 h)])
    else isFalse fun h' => h (by simp_all)

inductive FileError where
  | notFound
  | notDirectory
  | isDirectory
  | alreadyExists
  | nameTooLong
  /-- No file name can have the character NUL. -/
  | nulInPath
  deriving DecidableEq, Repr

def FileError.message : FileError → Text
  | notFound => "No such file or directory".toList
  | notDirectory => "Not a directory".toList
  | isDirectory => "Is a directory".toList
  | alreadyExists => "File exists".toList
  | nameTooLong => "File name too long".toList
  | nulInPath => "embedded null byte".toList

structure FileTree where
  /-- What there is, apart from the root. -/
  entries : List (Place × Entry)

namespace FileTree

def empty : FileTree := ⟨[]⟩

def find? (t : FileTree) (p : Place) : Option Entry :=
  if p.isEmpty then some .directory else t.entries.lookup p

def put (t : FileTree) (p : Place) (e : Entry) : FileTree :=
  ⟨(p, e) :: t.entries.filter fun x => x.1 != p⟩

def remove (t : FileTree) (p : Place) : FileTree :=
  ⟨t.entries.filter fun x => x.1 != p⟩

/-- Puts something at a place below another one, with the directories on the way to it that are
missing. -/
def plant (t : FileTree) (base : Place) : List Text → Entry → FileTree
  | [], _ => t
  | [name], e => t.put (base ++ [name]) e
  | name :: names, e =>
    let t := if (t.find? (base ++ [name])).isSome then t else t.put (base ++ [name]) .directory
    plant t (base ++ [name]) names e

def children (t : FileTree) (p : Place) : List Text :=
  t.entries.filterMap fun x =>
    match x.1.getLast? with
    | some name => if x.1.dropLast = p then some name else none
    | none => none

def currentSegment : Text := ['.']

/-- The longest name and the longest path, in bytes. -/
def maxNameSize : Nat := 255

def maxPathSize : Nat := 4095

def byteSize (t : Text) : Nat :=
  (String.ofList t).utf8ByteSize

def walk (t : FileTree) : Place → List Text → Except FileError Place
  | p, [] => .ok p
  | p, s :: rest =>
    match t.find? p with
    | some .directory =>
      if s = currentSegment then walk t p rest
      else if s = Path.parentSegment then walk t p.dropLast rest
      else if maxNameSize < byteSize s then .error .nameTooLong
      else if (t.find? (p ++ [s])).isSome then walk t (p ++ [s]) rest
      else .error .notFound
    | some (.file _) => .error .notDirectory
    | none => .error .notFound

/-- The names that a path follows; a slash at its end asks for a directory. -/
def steps (path : Text) : List Text :=
  (Path.segments path).filter (fun s => !s.isEmpty)
    ++ if Path.endsInSlash path then [currentSegment] else []

end FileTree

structure Workspace where
  tree : FileTree
  cwd : Place

namespace Workspace

open FileTree (currentSegment)

def cwdPath (w : Workspace) : Text :=
  '/' :: Text.joined ['/'] w.cwd

def origin (w : Workspace) (path : Text) : Place :=
  if Path.isAbsolute path then [] else w.cwd

def checkPath (path : Text) : Except FileError PUnit :=
  if path.contains '\x00' then .error .nulInPath
  else if path.isEmpty then .error .notFound
  else if FileTree.maxPathSize < FileTree.byteSize path then .error .nameTooLong
  else .ok ⟨⟩

def locate (w : Workspace) (path : Text) : Except FileError Place := do
  checkPath path
  w.tree.walk (w.origin path) (FileTree.steps path)

def entry? (w : Workspace) (path : Text) : Option Entry :=
  match w.locate path with
  | .ok p => w.tree.find? p
  | .error _ => none

def pathExists (w : Workspace) (path : Text) : Bool :=
  (w.entry? path).isSome

def isFile (w : Workspace) (path : Text) : Bool :=
  match w.entry? path with
  | some (.file _) => true
  | _ => false

def isDirectory (w : Workspace) (path : Text) : Bool :=
  match w.entry? path with
  | some .directory => true
  | _ => false

def list (w : Workspace) (path : Text) : List Text :=
  match w.locate path with
  | .ok p => w.tree.children p
  | .error _ => []

def read (w : Workspace) (path : Text) : Except FileError ByteArray := do
  let p ← w.locate path
  match w.tree.find? p with
  | some (.file bytes) => .ok bytes
  | some .directory => .error .isDirectory
  | none => .error .notFound

/-- The directory in which the last name of a path is to be found, and that name. There is no name
if the path is made of slashes only. -/
def target (w : Workspace) (path : Text) : Except FileError (Place × Option Text) := do
  checkPath path
  let names := FileTree.steps path
  let p ← w.tree.walk (w.origin path) names.dropLast
  match w.tree.find? p with
  | some .directory => .ok (p, names.getLast?)
  | _ => .error .notDirectory

def isSpecial (name : Text) : Bool :=
  name == currentSegment || name == Path.parentSegment

def withTree (w : Workspace) (tree : FileTree) : Workspace :=
  { w with tree }

/-- Makes a directory whose parent must be there already. -/
def makeDirectory (w : Workspace) (path : Text) : Except FileError Workspace := do
  match ← w.target path with
  | (p, some name) =>
    if isSpecial name then .error .alreadyExists
    else if FileTree.maxNameSize < FileTree.byteSize name then .error .nameTooLong
    else if (w.tree.find? (p ++ [name])).isSome then .error .alreadyExists
    else .ok (w.withTree (w.tree.put (p ++ [name]) .directory))
  | (_, none) => .error .alreadyExists

def writeFile (w : Workspace) (path : Text) (bytes : ByteArray) : Except FileError Workspace := do
  match ← w.target path with
  | (p, some name) =>
    if isSpecial name then .error .isDirectory
    else if FileTree.maxNameSize < FileTree.byteSize name then .error .nameTooLong
    else
      match w.tree.find? (p ++ [name]) with
      | some .directory => .error .isDirectory
      | _ => .ok (w.withTree (w.tree.put (p ++ [name]) (.file bytes)))
  | (_, none) => .error .isDirectory

end Workspace

end SliceIdl
