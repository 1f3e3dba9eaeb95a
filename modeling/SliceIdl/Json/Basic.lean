import SliceIdl.Number.Shortest

/-!
# JSON values

Strings are sequences of code points, because a value may hold a lone surrogate. The members of an
object keep their order. Numbers are whole numbers or binary64 numbers, told apart.
-/

set_option autoImplicit false

namespace SliceIdl

inductive Json where
  | null
  | bool (b : Bool)
  | int (n : Int)
  | float (x : Binary64)
  | str (s : List CodePoint)
  | arr (items : List Json)
  | obj (members : List (List CodePoint × Json))

namespace Json

def text (t : Text) : Json :=
  str (Text.codePoints t)

def ofString (s : String) : Json :=
  text s.toList

def object (members : List (String × Json)) : Json :=
  obj (members.map fun m => (Text.codePoints m.1.toList, m.2))

def ofOption {α : Type} (f : α → Json) : Option α → Json
  | none => null
  | some a => f a

end Json

end SliceIdl
