import SliceIdl.Number.Binary64
import SliceIdl.Source.Position

/-!
# Documents

What a source file declares. Names are kept as they are written, scoped names with their `::`.
Decoded string literals are sequences of code points. `loc` is where a declaration starts, its
metadata included.
-/

set_option autoImplicit false

namespace SliceIdl

abbrev Literal := List CodePoint

structure TypeRef where
  name : Text
  optional : Bool
  proxy : Bool
  deriving DecidableEq, Repr

inductive ConstValue where
  | int (n : Int)
  | float (x : Binary64)
  | string (s : Literal)
  | bool (b : Bool)
  | name (n : Text)
  deriving DecidableEq, Repr

structure DataMember where
  name : Text
  type : TypeRef
  loc : Position
  tag : Option Nat
  default : Option ConstValue
  metadata : List Literal
  deriving DecidableEq, Repr

structure Param where
  name : Text
  type : TypeRef
  loc : Position
  out : Bool
  tag : Option Nat
  metadata : List Literal
  deriving DecidableEq, Repr

structure Operation where
  name : Text
  returnType : TypeRef
  loc : Position
  params : List Param
  throws : List Text
  returnTag : Option Nat
  idempotent : Bool
  metadata : List Literal
  deriving DecidableEq, Repr

structure Interface where
  name : Text
  loc : Position
  bases : List Text
  operations : List Operation
  isLocal : Bool
  metadata : List Literal
  deriving DecidableEq, Repr

structure Class where
  name : Text
  loc : Position
  base : Option Text
  implements : List Text
  compactId : Option Int
  members : List DataMember
  operations : List Operation
  isLocal : Bool
  metadata : List Literal
  deriving DecidableEq, Repr

inductive ForwardKind where
  | ofInterface
  | ofClass
  deriving DecidableEq, Repr

structure Forward where
  kind : ForwardKind
  name : Text
  loc : Position
  isLocal : Bool
  metadata : List Literal
  deriving DecidableEq, Repr

structure Exception where
  name : Text
  loc : Position
  base : Option Text
  members : List DataMember
  isLocal : Bool
  metadata : List Literal
  deriving DecidableEq, Repr

structure Struct where
  name : Text
  loc : Position
  members : List DataMember
  isLocal : Bool
  metadata : List Literal
  deriving DecidableEq, Repr

structure Enumerator where
  name : Text
  loc : Position
  value : Option Int
  deriving DecidableEq, Repr

structure Enum where
  name : Text
  loc : Position
  enumerators : List Enumerator
  isLocal : Bool
  metadata : List Literal
  deriving DecidableEq, Repr

structure Sequence where
  name : Text
  elementType : TypeRef
  loc : Position
  elementMetadata : List Literal
  isLocal : Bool
  metadata : List Literal
  deriving DecidableEq, Repr

structure Dictionary where
  name : Text
  keyType : TypeRef
  valueType : TypeRef
  loc : Position
  keyMetadata : List Literal
  valueMetadata : List Literal
  isLocal : Bool
  metadata : List Literal
  deriving DecidableEq, Repr

structure Const where
  name : Text
  type : TypeRef
  value : ConstValue
  loc : Position
  typeMetadata : List Literal
  metadata : List Literal
  deriving DecidableEq, Repr

mutual

inductive Module where
  | mk (name : Text) (loc : Position) (definitions : List Definition) (metadata : List Literal)

inductive Definition where
  | module (d : Module)
  | interface (d : Interface)
  | class (d : Class)
  | forward (d : Forward)
  | exception (d : Exception)
  | struct (d : Struct)
  | enum (d : Enum)
  | sequence (d : Sequence)
  | dictionary (d : Dictionary)
  | const (d : Const)

end

namespace Module

def name : Module → Text
  | mk name _ _ _ => name

def loc : Module → Position
  | mk _ loc _ _ => loc

def definitions : Module → List Definition
  | mk _ _ definitions _ => definitions

def metadata : Module → List Literal
  | mk _ _ _ metadata => metadata

end Module

/-- The contents of one source file. `includes` are logical names without repeats, in the order in
which the file first mentions them. -/
structure Document where
  pragmaOnce : Bool
  includes : List Text
  fileMetadata : List Literal
  modules : List Module

end SliceIdl
