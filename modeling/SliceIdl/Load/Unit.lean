import SliceIdl.Load.Reader
import SliceIdl.Path.LogicalName
import SliceIdl.Report.Log

/-!
# Loading one file

The roots are tried in order until one has a readable file of the name. Its text is handed to the
parser; that it is refused is final. Every step leaves an event.
-/

set_option autoImplicit false

namespace SliceIdl

structure LoadedUnit (Doc : Type) where
  root : Text
  contents : Text
  document : Doc
  deriving DecidableEq, Repr

inductive LoadFailure where
  | error (e : LoadError)
  | fault (f : Fault)
  deriving DecidableEq, Repr

inductive LoadEvent where
  | registered (name : Text) (includedFrom : Option Text)
  /-- A name that is not registered because a unit has failed. -/
  | notStarted (name : Text)
  | read (path : Text) (outcome : ReadOutcome)
  | unreadable (name root : Text) (e : ReadError)
  | parsing (name path : Text)
  | complete (count : Nat)
  deriving DecidableEq, Repr

namespace LoadEvent

def closureRecord (message : Text) : Record :=
  ⟨.debug, "loader.closure".toList, message⟩

def unitRecord (message : Text) : Record :=
  ⟨.debug, "loader.load".toList, message⟩

def origin : Option Text → Text
  | none | some [] => "<input>".toList
  | some name => name

/-- The log record of an event; reading alone leaves none. -/
def record? : LoadEvent → Option Record
  | registered name includedFrom =>
    some (closureRecord
      (name ++ ": registered (included from ".toList ++ origin includedFrom ++ [')']))
  | notStarted name =>
    some (closureRecord (name ++ ": not started, closure already failed".toList))
  | read _ _ => none
  | unreadable name root e =>
    some (unitRecord
      (name ++ ": not readable under ".toList ++ root ++ " (".toList ++ e.label ++ [')']))
  | parsing name path => some (unitRecord (name ++ ": read ".toList ++ path))
  | complete count =>
    some (closureRecord ("closure complete: ".toList ++ Text.ofNat count ++ " unit(s)".toList))

def read? : LoadEvent → Option (Text × ReadOutcome)
  | read path outcome => some (path, outcome)
  | _ => none

end LoadEvent

def probePath (root name : Text) : Text :=
  Path.join root (LogicalName.relativePath name)

variable {Doc : Type}

def LoadedUnit.ofText (language : Language Doc) (name root text : Text) :
    Except LoadFailure (LoadedUnit Doc) :=
  match language.parse text with
  | .ok document => .ok ⟨root, text, document⟩
  | .error f =>
    .error (.error (.unparsable name (probePath root name) f.detail f.line? f.column?))

def loadUnit (reader : Reader) (language : Language Doc) (name : Text)
    (includedFrom : Option Text) :
    List Text → List LoadEvent × Except LoadFailure (LoadedUnit Doc)
  | [] => ([], .error (.error (.notFound name includedFrom)))
  | root :: roots =>
    let path := probePath root name
    let outcome := reader.read path
    match outcome with
    | .unreadable e =>
      let (events, result) := loadUnit reader language name includedFrom roots
      (.read path outcome :: .unreadable name root e :: events, result)
    | .broken f => ([.read path outcome], .error (.fault f))
    | .text t =>
      ([.read path outcome, .parsing name path], LoadedUnit.ofText language name root t)

end SliceIdl
