import SliceIdl.Document.Basic
import SliceIdl.Json.Basic

/-!
# Documents as JSON

A node is an object that starts with its kind; the other members are its fields.
-/

set_option autoImplicit false

namespace SliceIdl

def Position.toJson (p : Position) : Json :=
  .object [("line", .int p.line), ("column", .int p.column)]

namespace Json

def node (kind : String) (fields : List (String × Json)) : Json :=
  object (("kind", ofString kind) :: fields)

def texts (ts : List Text) : Json :=
  arr (ts.map text)

def literals (ss : List Literal) : Json :=
  arr (ss.map str)

def natOption : Option Nat → Json :=
  ofOption fun n => int n

end Json

open Json (node text texts literals bool ofOption natOption)

def TypeRef.toJson (t : TypeRef) : Json :=
  node "type" [("name", text t.name), ("optional", bool t.optional), ("proxy", bool t.proxy)]

def ConstValue.toJson (v : ConstValue) : Json :=
  let (kind, value) : String × Json := match v with
    | int n => ("int", .int n)
    | float x => ("float", .float x)
    | string s => ("string", .str s)
    | bool b => ("bool", .bool b)
    | name n => ("name", text n)
  node "value" [("valueKind", .ofString kind), ("value", value)]

def DataMember.toJson (m : DataMember) : Json :=
  node "dataMember"
    [("name", text m.name), ("type", m.type.toJson), ("loc", m.loc.toJson),
      ("tag", natOption m.tag), ("default", ofOption ConstValue.toJson m.default),
      ("metadata", literals m.metadata)]

def Param.toJson (p : Param) : Json :=
  node "param"
    [("name", text p.name), ("type", p.type.toJson), ("loc", p.loc.toJson), ("out", bool p.out),
      ("tag", natOption p.tag), ("metadata", literals p.metadata)]

def Operation.toJson (o : Operation) : Json :=
  node "operation"
    [("name", text o.name), ("returnType", o.returnType.toJson), ("loc", o.loc.toJson),
      ("params", .arr (o.params.map Param.toJson)), ("throws", texts o.throws),
      ("returnTag", natOption o.returnTag), ("idempotent", bool o.idempotent),
      ("metadata", literals o.metadata)]

def Interface.toJson (d : Interface) : Json :=
  node "interface"
    [("name", text d.name), ("loc", d.loc.toJson), ("bases", texts d.bases),
      ("operations", .arr (d.operations.map Operation.toJson)), ("local", bool d.isLocal),
      ("metadata", literals d.metadata)]

def Class.toJson (d : Class) : Json :=
  node "class"
    [("name", text d.name), ("loc", d.loc.toJson), ("base", ofOption text d.base),
      ("implements", texts d.implements), ("compactId", ofOption Json.int d.compactId),
      ("members", .arr (d.members.map DataMember.toJson)),
      ("operations", .arr (d.operations.map Operation.toJson)), ("local", bool d.isLocal),
      ("metadata", literals d.metadata)]

def ForwardKind.toJson : ForwardKind → Json
  | ofInterface => .ofString "interface"
  | ofClass => .ofString "class"

def Forward.toJson (d : Forward) : Json :=
  node "forward"
    [("declKind", d.kind.toJson), ("name", text d.name), ("loc", d.loc.toJson),
      ("local", bool d.isLocal), ("metadata", literals d.metadata)]

def Exception.toJson (d : Exception) : Json :=
  node "exception"
    [("name", text d.name), ("loc", d.loc.toJson), ("base", ofOption text d.base),
      ("members", .arr (d.members.map DataMember.toJson)), ("local", bool d.isLocal),
      ("metadata", literals d.metadata)]

def Struct.toJson (d : Struct) : Json :=
  node "struct"
    [("name", text d.name), ("loc", d.loc.toJson),
      ("members", .arr (d.members.map DataMember.toJson)), ("local", bool d.isLocal),
      ("metadata", literals d.metadata)]

def Enumerator.toJson (e : Enumerator) : Json :=
  node "enumerator"
    [("name", text e.name), ("loc", e.loc.toJson), ("value", ofOption Json.int e.value)]

def Enum.toJson (d : Enum) : Json :=
  node "enum"
    [("name", text d.name), ("loc", d.loc.toJson),
      ("enumerators", .arr (d.enumerators.map Enumerator.toJson)), ("local", bool d.isLocal),
      ("metadata", literals d.metadata)]

def Sequence.toJson (d : Sequence) : Json :=
  node "sequence"
    [("name", text d.name), ("elementType", d.elementType.toJson), ("loc", d.loc.toJson),
      ("elementMetadata", literals d.elementMetadata), ("local", bool d.isLocal),
      ("metadata", literals d.metadata)]

def Dictionary.toJson (d : Dictionary) : Json :=
  node "dictionary"
    [("name", text d.name), ("keyType", d.keyType.toJson), ("valueType", d.valueType.toJson),
      ("loc", d.loc.toJson), ("keyMetadata", literals d.keyMetadata),
      ("valueMetadata", literals d.valueMetadata), ("local", bool d.isLocal),
      ("metadata", literals d.metadata)]

def Const.toJson (d : Const) : Json :=
  node "const"
    [("name", text d.name), ("type", d.type.toJson), ("value", d.value.toJson),
      ("loc", d.loc.toJson), ("typeMetadata", literals d.typeMetadata),
      ("metadata", literals d.metadata)]

mutual

def Module.toJson : Module → Json
  | .mk name loc definitions metadata =>
    node "module"
      [("name", text name), ("loc", loc.toJson),
        ("definitions", .arr (definitionsJson definitions)), ("metadata", literals metadata)]

def Definition.toJson : Definition → Json
  | .module d => d.toJson
  | .interface d => d.toJson
  | .class d => d.toJson
  | .forward d => d.toJson
  | .exception d => d.toJson
  | .struct d => d.toJson
  | .enum d => d.toJson
  | .sequence d => d.toJson
  | .dictionary d => d.toJson
  | .const d => d.toJson

def definitionsJson : List Definition → List Json
  | [] => []
  | d :: ds => d.toJson :: definitionsJson ds

end

def Document.toJson (d : Document) : Json :=
  .object
    [("pragmaOnce", bool d.pragmaOnce), ("includes", texts d.includes),
      ("fileMetadata", literals d.fileMetadata), ("modules", .arr (d.modules.map Module.toJson))]

end SliceIdl
