import SliceIdl.Path.Parts
import SliceIdl.Path.SourceName

/-!
# Logical names

A logical name is the path of a source file below a root directory without its extension. It is
looked up as a relative path and its compiled form is kept under the same segments.
-/

set_option autoImplicit false

namespace SliceIdl.LogicalName

def relativePath (name : Text) : Text :=
  Path.joinAll (Path.segments name) ++ sourceExtension

def artifactExtension : Text :=
  ".json".toList

def artifactPath (outDir : PathParts) (name : Text) : PathParts :=
  let segments := Path.segments name
  outDir.extend (segments.dropLast ++ [segments.getLastD [] ++ artifactExtension])

/-- What every path below a root starts with. -/
def rootPrefix (root : Text) : Text :=
  if Path.endsInSlash root then root else root ++ ['/']

def remainder? (path root : Text) : Option Text :=
  Text.after? (rootPrefix root) path

def shortest? : List Text → Option Text
  | [] => none
  | t :: ts =>
    match shortest? ts with
    | none => some t
    | some u => if u.length < t.length then some u else some t

/-- The path relative to the most specific of the roots. -/
def relative? (path : Text) (roots : List Text) : Option Text :=
  shortest? (roots.filterMap (remainder? path))

end SliceIdl.LogicalName
