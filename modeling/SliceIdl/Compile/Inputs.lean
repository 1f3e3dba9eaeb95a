import SliceIdl.Report.Log
import SliceIdl.Text.Basic

/-!
# Selecting input files

Patterns are expanded in order. Two paths with the same key are the same file: of such paths the
first one is kept, and none if a pattern for exclusion stands for that file too. How a pattern is
expanded and what the key of a path is are parameters.
-/

set_option autoImplicit false

namespace SliceIdl

inductive InputEvent where
  | unmatched (pattern : Text)
  | excluded (path : Text)
  deriving DecidableEq, Repr

def InputEvent.record : InputEvent → Record
  | unmatched pattern =>
    ⟨.warning, "driver.globs".toList, pattern ++ ": matched no files".toList⟩
  | excluded path => ⟨.debug, "driver.globs".toList, path ++ ": excluded".toList⟩

structure Selection where
  paths : List Text
  events : List InputEvent
  deriving DecidableEq, Repr

namespace Selection

def empty : Selection := ⟨[], []⟩

variable (expand : Text → List Text) (key : Text → Text)

def excludedKeys (excludes : List Text) : List Text :=
  (excludes.flatMap expand).map key

def add (excluded : List Text) (s : Selection) (path : Text) : Selection :=
  if key path ∈ excluded then { s with events := s.events ++ [.excluded path] }
  else if key path ∈ s.paths.map key then s
  else { s with paths := s.paths ++ [path] }

def addPattern (excluded : List Text) (s : Selection) (pattern : Text) : Selection :=
  match expand pattern with
  | [] => { s with events := s.events ++ [.unmatched pattern] }
  | path :: paths => (path :: paths).foldl (add key excluded) s

/-- The files that the patterns stand for, less the excluded ones. -/
def ofPatterns (patterns excludes : List Text) : Selection :=
  patterns.foldl (addPattern expand key (excludedKeys expand key excludes)) empty

end Selection

end SliceIdl
