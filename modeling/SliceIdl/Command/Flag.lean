import SliceIdl.Text.Basic

/-!
# Flags

The options of the command line: how each of them is spelled and how many values it takes. A short
spelling is a hyphen and a letter, a long one starts with two hyphens.
-/

set_option autoImplicit false

namespace SliceIdl

inductive Arity where
  | none
  | one
  | oneOrMore
  deriving DecidableEq, Repr

inductive Flag where
  | help
  | rootDir
  | exclude
  | outDir
  | noBuiltin
  | json
  | verbose
  | quiet
  | version
  deriving DecidableEq, Repr

namespace Flag

/-- In the order in which messages name them. -/
def all : List Flag :=
  [help, rootDir, exclude, outDir, noBuiltin, json, verbose, quiet, version]

def letter? : Flag → Option Char
  | help => some 'h'
  | exclude => some 'e'
  | outDir => some 'o'
  | verbose => some 'v'
  | quiet => some 'q'
  | rootDir | noBuiltin | json | version => Option.none

def word : Flag → Text
  | help => "help".toList
  | rootDir => "root-dir".toList
  | exclude => "exclude".toList
  | outDir => "out-dir".toList
  | noBuiltin => "no-builtin".toList
  | json => "json".toList
  | verbose => "verbose".toList
  | quiet => "quiet".toList
  | version => "version".toList

def arity : Flag → Arity
  | rootDir | exclude => .oneOrMore
  | outDir => .one
  | help | noBuiltin | json | verbose | quiet | version => .none

def longSpelling (f : Flag) : Text :=
  '-' :: '-' :: f.word

def spellings (f : Flag) : List Text :=
  (f.letter?.map fun c => ['-', c]).toList ++ [f.longSpelling]

def table : List (Text × Flag) :=
  all.flatMap fun f => f.spellings.map fun s => (s, f)

def ofSpelling? (t : Text) : Option Flag :=
  table.lookup t

def ofLetter? (c : Char) : Option Flag :=
  all.find? fun f => f.letter? == some c

def label (f : Flag) : Text :=
  Text.joined ['/'] f.spellings

end Flag

end SliceIdl
