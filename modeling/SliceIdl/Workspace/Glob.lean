import SliceIdl.Workspace.Tree
import SliceIdl.Workspace.Wildcard

/-!
# Globs

A path pattern is expanded segment by segment. A segment that is exactly `**` stands for a directory
and everything below it. Names that start with a dot are only matched by a pattern that does so too.
The directory in front of the first segment with magic in it is listed whether it is there or not,
and listing fails if no directory can have its path.
-/

set_option autoImplicit false

namespace SliceIdl.Glob

def hasMagic (p : Text) : Bool :=
  p.any fun c => c == '*' || c == '?' || c == '['

def isHidden (name : Text) : Bool :=
  name.head? == some '.'

def isRecursive (pattern : Text) : Bool :=
  pattern == ['*', '*']

def lastSegment (p : Text) : Text :=
  (p.reverse.takeWhile (· != '/')).reverse

def withoutEndSlashes (p : Text) : Text :=
  if p.all (· == '/') then p else (p.reverse.dropWhile (· == '/')).reverse

/-- What stands in front of the last segment, without slashes at its end unless it has nothing
else. -/
def parentPath (p : Text) : Text :=
  withoutEndSlashes (p.reverse.dropWhile (· != '/')).reverse

def under (dir name : Text) : Text :=
  if dir.isEmpty || name.isEmpty then dir ++ name else Path.join dir name

variable (w : Workspace)

def namesIn (dir : Text) (directoriesOnly : Bool) : List Text :=
  let names := w.list (Path.orDot dir)
  if directoriesOnly then names.filter fun name => w.isDirectory (under (Path.orDot dir) name)
  else names

/-- Everything below a directory, as paths relative to it. -/
def below (directoriesOnly : Bool) : Nat → Text → List Text
  | 0, _ => []
  | depth + 1, dir =>
    ((namesIn w dir directoriesOnly).filter fun name => !isHidden name).flatMap fun name =>
      name :: (below directoriesOnly depth (under dir name)).map (under name)

/-- No path can be longer than the tree is large. -/
def allBelow (directoriesOnly : Bool) (dir : Text) : List Text :=
  below w directoriesOnly (w.tree.entries.length + 1) dir

/-- What a pattern for the last segment matches in a directory, as paths relative to it. -/
def matchesIn (directoriesOnly : Bool) (dir pattern : Text) : List Text :=
  if isRecursive pattern then
    (if dir.isEmpty || w.isDirectory dir then [[]] else []) ++ allBelow w directoriesOnly dir
  else if hasMagic pattern then
    (namesIn w dir directoriesOnly).filter fun name =>
      (isHidden pattern || !isHidden name) && Wildcard.matches? pattern name
  else if pattern.isEmpty then if w.isDirectory dir then [[]] else []
  else if w.pathExists (under dir pattern) then [pattern] else []

def magicPaths (directoriesOnly : Bool) (pattern : Text) : List Text :=
  if (parentPath pattern).isEmpty then matchesIn w directoriesOnly [] (lastSegment pattern)
  else
    let dirs :=
      if _ : hasMagic (parentPath pattern) ∧ (parentPath pattern).length < pattern.length then
        magicPaths true (parentPath pattern)
      else [parentPath pattern]
    dirs.flatMap fun d => (matchesIn w directoriesOnly d (lastSegment pattern)).map (Path.join d)
termination_by pattern.length

def files (pattern : Text) : List Text :=
  if hasMagic pattern then
    ((magicPaths w false pattern).filter w.isFile).mergeSort Text.upTo
  else if w.isFile pattern then [pattern] else []

def fixedDirectory (pattern : Text) : Text :=
  parentPath (pattern.takeWhile fun c => !hasMagic [c])

/-- Whether the expansion of a pattern lists only directories that can be there. -/
def isExpandable (pattern : Text) : Bool :=
  !hasMagic pattern || !(fixedDirectory pattern).contains '\x00'

end SliceIdl.Glob
