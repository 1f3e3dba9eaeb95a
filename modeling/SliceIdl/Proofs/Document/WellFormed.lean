import SliceIdl.Document.Basic
import SliceIdl.Proofs.Source.Lexemes

/-!
# Documents that can be written

A document can be written if its names are names of the language and it breaks no rule that the
parser checks; float constants are left out. Two documents are alike up to positions if they are
the same without them.
-/

set_option autoImplicit false

namespace SliceIdl
open Text Lexeme

def IsScopedName (n : Text) : Prop :=
  ∃ parts, parts ≠ [] ∧ (∀ p ∈ parts, IsIdentifier p) ∧
    (n = joined [':', ':'] parts ∨ n = [':', ':'] ++ joined [':', ':'] parts)

def TypeRef.WellFormed (t : TypeRef) : Prop :=
  IsScopedName t.name

def ConstValue.WellFormed : ConstValue → Prop
  | name n => IsScopedName n
  | float _ => False
  | int _ | string _ | bool _ => True

structure DataMember.WellFormed (m : DataMember) : Prop where
  name : IsIdentifier m.name
  type : m.type.WellFormed
  default : ∀ v ∈ m.default, v.WellFormed

structure Param.WellFormed (p : Param) : Prop where
  name : IsIdentifier p.name
  type : p.type.WellFormed

structure Operation.WellFormed (o : Operation) : Prop where
  name : IsIdentifier o.name
  returnType : o.returnType.WellFormed
  params : ∀ p ∈ o.params, p.WellFormed
  distinct : (o.params.map Param.name).Nodup
  throws : ∀ n ∈ o.throws, IsScopedName n

structure Interface.WellFormed (d : Interface) : Prop where
  name : IsIdentifier d.name
  bases : ∀ n ∈ d.bases, IsScopedName n
  operations : ∀ o ∈ d.operations, o.WellFormed

structure Class.WellFormed (d : Class) : Prop where
  name : IsIdentifier d.name
  base : ∀ n ∈ d.base, IsScopedName n
  implements : ∀ n ∈ d.implements, IsScopedName n
  members : ∀ m ∈ d.members, m.WellFormed
  operations : ∀ o ∈ d.operations, o.WellFormed

structure Exception.WellFormed (d : Exception) : Prop where
  name : IsIdentifier d.name
  base : ∀ n ∈ d.base, IsScopedName n
  members : ∀ m ∈ d.members, m.WellFormed

structure Struct.WellFormed (d : Struct) : Prop where
  name : IsIdentifier d.name
  nonempty : d.members ≠ []
  members : ∀ m ∈ d.members, m.WellFormed

structure Enum.WellFormed (d : Enum) : Prop where
  name : IsIdentifier d.name
  nonempty : d.enumerators ≠ []
  enumerators : ∀ e ∈ d.enumerators, IsIdentifier e.name

structure Sequence.WellFormed (d : Sequence) : Prop where
  name : IsIdentifier d.name
  elementType : d.elementType.WellFormed

structure Dictionary.WellFormed (d : Dictionary) : Prop where
  name : IsIdentifier d.name
  keyType : d.keyType.WellFormed
  valueType : d.valueType.WellFormed

structure Const.WellFormed (d : Const) : Prop where
  name : IsIdentifier d.name
  type : d.type.WellFormed
  value : d.value.WellFormed

mutual

def Module.WellFormed : Module → Prop
  | .mk name _ definitions _ => IsScopedName name ∧ DefinitionsWellFormed definitions

def Definition.WellFormed : Definition → Prop
  | .module d => d.WellFormed
  | .interface d => d.WellFormed
  | .class d => d.WellFormed
  | .forward d => IsIdentifier d.name
  | .exception d => d.WellFormed
  | .struct d => d.WellFormed
  | .enum d => d.WellFormed
  | .sequence d => d.WellFormed
  | .dictionary d => d.WellFormed
  | .const d => d.WellFormed

def DefinitionsWellFormed : List Definition → Prop
  | [] => True
  | d :: ds => d.WellFormed ∧ DefinitionsWellFormed ds

end

/-- A name that an include line can give: it does not start with what is trimmed from a path, and
one of the delimiters does not end it. -/
structure CanBeIncluded (n : Text) : Prop where
  nonempty : n ≠ []
  head : HeadNot isBlank n
  chars : ∀ c ∈ n, c ≠ '\\' ∧ c ≠ '\n'
  delimited : '>' ∉ n ∨ '"' ∉ n

structure Document.WellFormed (d : Document) : Prop where
  distinct : d.includes.Nodup
  includes : ∀ n ∈ d.includes, CanBeIncluded n
  modules : ∀ m ∈ d.modules, m.WellFormed

def DataMember.unlocated (m : DataMember) : DataMember :=
  { m with loc := .start }

def Param.unlocated (p : Param) : Param :=
  { p with loc := .start }

def Operation.unlocated (o : Operation) : Operation :=
  { o with loc := .start, params := o.params.map Param.unlocated }

def Interface.unlocated (d : Interface) : Interface :=
  { d with loc := .start, operations := d.operations.map Operation.unlocated }

def Class.unlocated (d : Class) : Class :=
  { d with
    loc := .start
    members := d.members.map DataMember.unlocated
    operations := d.operations.map Operation.unlocated }

def Forward.unlocated (d : Forward) : Forward :=
  { d with loc := .start }

def Exception.unlocated (d : Exception) : Exception :=
  { d with loc := .start, members := d.members.map DataMember.unlocated }

def Struct.unlocated (d : Struct) : Struct :=
  { d with loc := .start, members := d.members.map DataMember.unlocated }

def Enumerator.unlocated (e : Enumerator) : Enumerator :=
  { e with loc := .start }

def Enum.unlocated (d : Enum) : Enum :=
  { d with loc := .start, enumerators := d.enumerators.map Enumerator.unlocated }

def Sequence.unlocated (d : Sequence) : Sequence :=
  { d with loc := .start }

def Dictionary.unlocated (d : Dictionary) : Dictionary :=
  { d with loc := .start }

def Const.unlocated (d : Const) : Const :=
  { d with loc := .start }

mutual

def Module.unlocated : Module → Module
  | .mk name _ definitions metadata => .mk name .start (unlocatedDefinitions definitions) metadata

def Definition.unlocated : Definition → Definition
  | .module d => .module d.unlocated
  | .interface d => .interface d.unlocated
  | .class d => .class d.unlocated
  | .forward d => .forward d.unlocated
  | .exception d => .exception d.unlocated
  | .struct d => .struct d.unlocated
  | .enum d => .enum d.unlocated
  | .sequence d => .sequence d.unlocated
  | .dictionary d => .dictionary d.unlocated
  | .const d => .const d.unlocated

def unlocatedDefinitions : List Definition → List Definition
  | [] => []
  | d :: ds => d.unlocated :: unlocatedDefinitions ds

end

def Document.unlocated (d : Document) : Document :=
  { d with modules := d.modules.map Module.unlocated }

end SliceIdl
