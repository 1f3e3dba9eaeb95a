import SliceIdl.Document.Parse
import SliceIdl.Load.Reader

/-!
# The language of the files

Source files are parsed into documents, and a document names its includes.
-/

set_option autoImplicit false

namespace SliceIdl

def SyntaxError.toFailure (e : SyntaxError) : ParseFailure :=
  .refused e.message (e.pos?.map fun p => (p.line : Int)) (e.pos?.map fun p => (p.column : Int))

def Document.language : Language Document where
  parse source := (Document.parse source).mapError SyntaxError.toFailure
  includes d := d.includes

end SliceIdl
