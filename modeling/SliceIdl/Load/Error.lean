import SliceIdl.Report.Diagnostic

/-!
# Load errors

Why a file cannot be named, found or parsed.
-/

set_option autoImplicit false

namespace SliceIdl

inductive LoadError where
  | general (message : Text) (name path : Option Text) (line column : Option Int)
  | notInAnyRoot (path : Text) (roots : List Text)
  | invalidExtension (path relative : Text)
  | notFound (name : Text) (includedFrom : Option Text)
  | unparsable (name path detail : Text) (line column : Option Int)
  deriving DecidableEq, Repr

namespace LoadError

def message : LoadError → Text
  | general message .. => message
  | notInAnyRoot path _ =>
    "Slice file ".toList ++ path ++ " is not contained in any of the root dirs".toList
  | invalidExtension _ relative => "Invalid slice file extension: ".toList ++ relative
  | notFound name _ => "Failed to load slice file: ".toList ++ name ++ ".ice".toList
  | unparsable name _ detail _ _ => name ++ ".ice\n".toList ++ detail

def name? : LoadError → Option Text
  | general _ name .. => name
  | notInAnyRoot .. | invalidExtension .. => none
  | notFound name _ | unparsable name .. => some name

def path? : LoadError → Option Text
  | general _ _ path .. => path
  | notInAnyRoot path _ | invalidExtension path _ | unparsable _ path .. => some path
  | notFound .. => none

def line? : LoadError → Option Int
  | general _ _ _ line _ | unparsable _ _ _ line _ => line
  | _ => none

def column? : LoadError → Option Int
  | general _ _ _ _ column | unparsable _ _ _ _ column => column
  | _ => none

def code : LoadError → Text
  | general .. => "E-LOAD".toList
  | notInAnyRoot .. => "E-NOT-IN-ROOT".toList
  | invalidExtension .. => "E-EXTENSION".toList
  | notFound .. => "E-NOT-FOUND".toList
  | unparsable .. => "E-PARSE".toList

def phase : LoadError → Text
  | general .. | notFound .. => "load".toList
  | notInAnyRoot .. | invalidExtension .. => "resolve".toList
  | unparsable .. => "parse".toList

def notes : LoadError → List Text
  | general .. | invalidExtension .. => []
  | notInAnyRoot _ roots => roots.map fun root => "root dir: ".toList ++ root
  | notFound _ includedFrom =>
    includedFrom.toList.map fun name => "included from ".toList ++ name
  | unparsable name .. => ["while parsing ".toList ++ name]

/-- The headline of the diagnostic: of a file that was not accepted only the parser's own words. -/
def headline : LoadError → Text
  | unparsable _ _ detail _ _ => detail
  | e => e.message

def diagnostic (e : LoadError) : Diagnostic where
  message := e.headline
  code := some e.code
  phase := some e.phase
  span := .ofLocation e.path? (.attributes none e.line? e.column?)
  notes := e.notes

end LoadError

end SliceIdl
