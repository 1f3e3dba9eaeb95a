import SliceIdl.Load.Error
import SliceIdl.Path.LogicalName

/-!
# Naming input files

A file is named after its path below the most specific root that contains it.
-/

set_option autoImplicit false

namespace SliceIdl.LogicalName

def resolve (path : Text) (roots : List Text) : Except LoadError Text :=
  match relative? path roots with
  | none => .error (.notInAnyRoot path roots)
  | some relative =>
    match stem? relative with
    | none => .error (.invalidExtension path relative)
    | some name => .ok name

end SliceIdl.LogicalName
