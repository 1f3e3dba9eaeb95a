import SliceIdl.Load.Error

/-!
# Reading and parsing a file

What a reader answers for a path, and what a parser answers for a text. A reader is a fixed map and
has only finitely many texts to give, so that following the includes comes to an end.
-/

set_option autoImplicit false

namespace SliceIdl

/-- Why a file is not readable below a root; the next root is tried. -/
inductive ReadError where
  | notFound
  | noPermission
  | isDirectory
  | notDirectory
  | nameTooLong
  | notText
  | other (kind : Text)
  deriving DecidableEq, Repr

def ReadError.label : ReadError → Text
  | notFound => "FileNotFoundError".toList
  | noPermission => "PermissionError".toList
  | isDirectory => "IsADirectoryError".toList
  | notDirectory => "NotADirectoryError".toList
  | nameTooLong => "OSError".toList
  | notText => "UnicodeDecodeError".toList
  | other kind => kind

/-- A failure that no other root can mend. -/
structure Fault where
  kind : Text
  message : Text
  deriving DecidableEq, Repr

def Fault.ofValue (message : Text) : Fault :=
  ⟨"ValueError".toList, message⟩

inductive ReadOutcome where
  | text (t : Text)
  | unreadable (e : ReadError)
  | broken (f : Fault)
  deriving DecidableEq, Repr

namespace ReadOutcome

def isText : ReadOutcome → Bool
  | text _ => true
  | _ => false

def label : ReadOutcome → Text
  | text _ => "ok".toList
  | unreadable e => e.label
  | broken f => f.kind

end ReadOutcome

structure Reader where
  read : Text → ReadOutcome
  finite : ∃ texts : List Text, ∀ path t, read path = .text t → t ∈ texts

def Reader.ofFiles (files : List (Text × ReadOutcome)) : Reader where
  read path := (files.lookup path).getD (.unreadable .notFound)
  finite := by
    refine ⟨files.filterMap fun f => match f.2 with | .text t => some t | _ => none, ?_⟩
    intro path t h
    cases hl : files.lookup path with
    | none => simp [hl] at h
    | some outcome =>
      obtain ⟨before, after, rfl, -⟩ := List.lookup_eq_some_iff.1 hl
      simp only [hl, Option.getD_some] at h
      simp [h]

inductive ParseFailure where
  | refused (message : Text) (line column : Option Int)
  /-- The parser itself failed with an error of some kind. -/
  | failed (kind message : Text) (line column : Option Int)
  deriving DecidableEq, Repr

namespace ParseFailure

/-- A failure without a message is told by its kind. -/
def detail : ParseFailure → Text
  | refused message .. => message
  | failed kind message .. => if message.isEmpty then kind else message

def line? : ParseFailure → Option Int
  | refused _ line _ | failed _ _ line _ => line

def column? : ParseFailure → Option Int
  | refused _ _ column | failed _ _ _ column => column

end ParseFailure

structure Language (Doc : Type) where
  parse : Text → Except ParseFailure Doc
  includes : Doc → List Text

end SliceIdl
