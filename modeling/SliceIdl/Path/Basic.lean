import SliceIdl.Text.Basic

/-!
# Paths

Paths are texts whose segments are separated by slashes. Joining keeps an absolute second path as it
is; normalising removes empty and `.` segments and lets `..` cancel the segment in front of it,
without a look at any file. Exactly two leading slashes are kept, because they mean something else
than one.
-/

set_option autoImplicit false

namespace SliceIdl.Path

/-- The pieces between the slashes; there is always one more of them than there are slashes. -/
def segments : Text → List Text
  | [] => [[]]
  | c :: t =>
    if c = '/' then [] :: segments t
    else
      match segments t with
      | [] => [[c]]
      | s :: rest => (c :: s) :: rest

def isAbsolute (p : Text) : Bool :=
  p.head? == some '/'

def endsInSlash (p : Text) : Bool :=
  p.getLast? == some '/'

def join (base p : Text) : Text :=
  if isAbsolute p then p
  else if base.isEmpty || endsInSlash base then base ++ p
  else base ++ '/' :: p

def joinAll (ps : List Text) : Text :=
  ps.foldl join []

/-- One, two or no leading slashes: two only if there is no third. -/
def rootOf : Text → Text
  | '/' :: '/' :: '/' :: _ => ['/']
  | '/' :: '/' :: _ => ['/', '/']
  | '/' :: _ => ['/']
  | _ => []

def isProper (segment : Text) : Bool :=
  !segment.isEmpty && segment != ['.']

def parentSegment : Text := ['.', '.']

/-- The proper segments with `..` resolved; `up` is the result so far, the last segment first. -/
def collapse (absolute : Bool) : List Text → List Text → List Text
  | up, [] => up.reverse
  | up, s :: rest =>
    if s = parentSegment then
      match up with
      | [] => collapse absolute (if absolute then [] else [s]) rest
      | last :: up' =>
        if last = parentSegment then collapse absolute (s :: up) rest
        else collapse absolute up' rest
    else collapse absolute (s :: up) rest

def orDot (p : Text) : Text :=
  if p.isEmpty then ['.'] else p

def normalised (p : Text) : Text :=
  orDot (rootOf p
    ++ Text.joined ['/'] (collapse (isAbsolute p) [] ((segments p).filter isProper)))

def absolute (cwd p : Text) : Text :=
  normalised (join cwd p)

end SliceIdl.Path
