import SliceIdl.Document.Error
import SliceIdl.Document.Literal
import SliceIdl.Grammar.Tree
import SliceIdl.Path.SourceName

/-!
# From trees to documents

Each tree of the grammar becomes a node of the document, or is rejected. What is checked first is
what counts when a tree breaks several rules: the parts of a definition in the order of its fields,
its own metadata last, but the metadata of a module before the definitions in it.
-/

set_option autoImplicit false

namespace SliceIdl.Grammar

abbrev Build := Except Rejection

def stringValue (t : Tok .string) : Build Literal :=
  match Literal.ofToken? t.text with
  | some s => pure s
  | none => throw (.stringLiteral t.text t.pos)

def intValue (t : Tok .int) : Build Int :=
  match Literal.int t.text with
  | .ok n => pure n
  | .error digits => throw (.longNumeral digits)

def StringList.toList (s : StringList) : List (Tok .string) :=
  s.first :: s.more.map Prod.snd

def Metadata.build (m : Metadata) : Build (List Literal) :=
  m.strings.toList.mapM stringValue

def buildMetadata : Option Metadata → Build (List Literal)
  | none => pure []
  | some m => m.build

def ScopedName.text (n : ScopedName) : Text :=
  (n.lead.map Tok.text).getD [] ++ n.first.text
    ++ n.more.flatMap fun part => part.1.text ++ part.2.text

def ScopedName.loc (n : ScopedName) : Position :=
  (n.lead.map Tok.pos).getD n.first.pos

def NameList.texts {keyword : TokenKind} (n : NameList keyword) : List Text :=
  n.first.text :: n.more.map fun part => part.2.text

def nameTexts {keyword : TokenKind} (n : Option (NameList keyword)) : List Text :=
  (n.map NameList.texts).getD []

def TypeName.build (t : TypeName) : TypeRef where
  name := t.name.text
  optional := t.question.isSome
  proxy := t.star.isSome

def OptionalTag.build (t : OptionalTag) : Build Nat := do
  let n ← intValue t.number.value
  match n with
  | .ofNat n => pure n
  | .negSucc n =>
    if Text.tooLongToWrite (.negSucc n) then throw .longNegativeTag
    else throw (.negativeTag (.negSucc n) t.keyword.pos)

def MemberType.loc (t : MemberType) : Position :=
  (t.tag.map fun tag => tag.keyword.pos).getD t.type.name.loc

def MemberType.tagNumber (t : MemberType) : Build (Option Nat) :=
  t.tag.mapM OptionalTag.build

def ConstValue.build : ConstValue → Build SliceIdl.ConstValue
  | int t => .int <$> intValue t
  | float t => pure (.float (Literal.float t.text))
  | string t => .string <$> stringValue t
  | true _ => pure (.bool Bool.true)
  | false _ => pure (.bool Bool.false)
  | name n => pure (.name n.text)

/-- The position of the metadata in front of a part, or else of the part. -/
def locAfter (metadata : Option Metadata) (loc : Position) : Position :=
  (metadata.map fun m => m.left.pos).getD loc

def Modifiers.locOr (m : Modifiers) (loc : Position) : Position :=
  locAfter m.metadata ((m.isLocal.map Tok.pos).getD loc)

def DataMember.build (m : DataMember) : Build SliceIdl.DataMember := do
  let tag ← m.type.tagNumber
  let default ← m.initial.mapM fun i => i.value.build
  let metadata ← buildMetadata m.metadata
  pure
    { name := m.name.text
      type := m.type.type.build
      loc := locAfter m.metadata m.type.loc
      tag, default, metadata }

def Param.loc (p : Param) : Position :=
  locAfter p.metadata ((p.out.map Tok.pos).getD p.type.loc)

def Param.build (p : Param) : Build SliceIdl.Param := do
  let tag ← p.type.tagNumber
  let metadata ← buildMetadata p.metadata
  pure
    { name := p.name.text
      type := p.type.type.build
      loc := p.loc
      out := p.out.isSome
      tag, metadata }

def firstRepeat? (seen : List Text) : List SliceIdl.Param → Option SliceIdl.Param
  | [] => none
  | p :: ps => if p.name ∈ seen then some p else firstRepeat? (p.name :: seen) ps

def Operation.build (o : Operation) : Build SliceIdl.Operation := do
  let params ← ((o.params.map ParamList.toList).getD []).mapM Param.build
  if let some p := firstRepeat? [] params then
    throw (.duplicateParam p.name o.name.text p.loc)
  let returnTag ← o.type.tagNumber
  let metadata ← buildMetadata o.metadata
  pure
    { name := o.name.text
      returnType := o.type.type.build
      loc := locAfter o.metadata ((o.idempotent.map Tok.pos).getD o.type.loc)
      params
      throws := nameTexts o.throws
      returnTag
      idempotent := o.idempotent.isSome
      metadata }

def Interface.build (d : Interface) : Build SliceIdl.Interface := do
  let operations ← d.body.items.mapM Operation.build
  let metadata ← buildMetadata d.modifiers.metadata
  pure
    { name := d.name.text
      loc := d.modifiers.locOr d.keyword.pos
      bases := nameTexts d.bases
      operations
      isLocal := d.modifiers.isLocal.isSome
      metadata }

def Forward.build {keyword : TokenKind} (kind : ForwardKind) (d : Forward keyword) :
    Build SliceIdl.Forward := do
  let metadata ← buildMetadata d.modifiers.metadata
  pure
    { kind
      name := d.name.text
      loc := d.modifiers.locOr d.keyword.pos
      isLocal := d.modifiers.isLocal.isSome
      metadata }

def ClassItem.member? : ClassItem → Option DataMember
  | member m => some m
  | operation _ => none

def ClassItem.operation? : ClassItem → Option Operation
  | member _ => none
  | operation o => some o

def Class.build (d : Class) : Build SliceIdl.Class := do
  let compactId ← d.compactId.mapM fun p => intValue p.value
  let members ← (d.body.items.filterMap ClassItem.member?).mapM DataMember.build
  let operations ← (d.body.items.filterMap ClassItem.operation?).mapM Operation.build
  let metadata ← buildMetadata d.modifiers.metadata
  pure
    { name := d.name.text
      loc := d.modifiers.locOr d.keyword.pos
      base := d.base.map fun b => b.name.text
      implements := nameTexts d.implements
      compactId, members, operations
      isLocal := d.modifiers.isLocal.isSome
      metadata }

def Exception.build (d : Exception) : Build SliceIdl.Exception := do
  let members ← d.body.items.mapM DataMember.build
  let metadata ← buildMetadata d.modifiers.metadata
  pure
    { name := d.name.text
      loc := d.modifiers.locOr d.keyword.pos
      base := d.base.map fun b => b.name.text
      members
      isLocal := d.modifiers.isLocal.isSome
      metadata }

def Struct.build (d : Struct) : Build SliceIdl.Struct := do
  let members ← d.body.items.mapM DataMember.build
  let loc := d.modifiers.locOr d.keyword.pos
  if members.isEmpty then throw (.emptyStruct d.name.text loc)
  let metadata ← buildMetadata d.modifiers.metadata
  pure
    { name := d.name.text
      loc, members
      isLocal := d.modifiers.isLocal.isSome
      metadata }

def Enumerator.build (e : Enumerator) : Build SliceIdl.Enumerator := do
  let value ← e.value.mapM fun v => intValue v.value
  pure { name := e.name.text, loc := e.name.pos, value }

def Enum.build (d : Enum) : Build SliceIdl.Enum := do
  let enumerators ← ((d.enumerators.map EnumeratorList.toList).getD []).mapM Enumerator.build
  let loc := d.modifiers.locOr d.keyword.pos
  if enumerators.isEmpty then throw (.emptyEnum d.name.text loc)
  let metadata ← buildMetadata d.modifiers.metadata
  pure
    { name := d.name.text
      loc, enumerators
      isLocal := d.modifiers.isLocal.isSome
      metadata }

def Sequence.build (d : Sequence) : Build SliceIdl.Sequence := do
  let elementMetadata ← buildMetadata d.element.metadata
  let metadata ← buildMetadata d.modifiers.metadata
  pure
    { name := d.name.text
      elementType := d.element.type.build
      loc := d.modifiers.locOr d.keyword.pos
      elementMetadata
      isLocal := d.modifiers.isLocal.isSome
      metadata }

def Dictionary.build (d : Dictionary) : Build SliceIdl.Dictionary := do
  let keyMetadata ← buildMetadata d.key.metadata
  let valueMetadata ← buildMetadata d.value.metadata
  let metadata ← buildMetadata d.modifiers.metadata
  pure
    { name := d.name.text
      keyType := d.key.type.build
      valueType := d.value.type.build
      loc := d.modifiers.locOr d.keyword.pos
      keyMetadata, valueMetadata
      isLocal := d.modifiers.isLocal.isSome
      metadata }

def Const.build (d : Const) : Build SliceIdl.Const := do
  let value ← d.initial.value.build
  let typeMetadata ← buildMetadata d.type.metadata
  let metadata ← buildMetadata d.metadata
  pure
    { name := d.name.text
      type := d.type.type.build
      value
      loc := locAfter d.metadata d.keyword.pos
      typeMetadata, metadata }

mutual

def Module.build : Module → Build SliceIdl.Module
  | .mk metadata keyword name _ definitions _ _ => do
    let strings ← buildMetadata metadata
    let definitions ← buildDefinitions definitions
    pure (.mk name.text (locAfter metadata keyword.pos) definitions strings)

def Definition.build : Definition → Build SliceIdl.Definition
  | .module d => .module <$> d.build
  | .interface d => .interface <$> d.build
  | .interfaceForward d => .forward <$> d.build .ofInterface
  | .class d => .class <$> d.build
  | .classForward d => .forward <$> d.build .ofClass
  | .exception d => .exception <$> d.build
  | .struct d => .struct <$> d.build
  | .enum d => .enum <$> d.build
  | .sequence d => .sequence <$> d.build
  | .dictionary d => .dictionary <$> d.build
  | .const d => .const <$> d.build

def buildDefinitions : List Definition → Build (List SliceIdl.Definition)
  | [] => pure []
  | d :: ds => do
    let d ← d.build
    let ds ← buildDefinitions ds
    pure (d :: ds)

end

def includeTarget (line : Text) : Text :=
  Text.trimmed ((line.dropWhile fun c => c != '<' && c != '"').drop 1).dropLast

/-- The logical name of an include target: its stem, with slashes for backslashes. -/
def includeName? (target : Text) : Option Text :=
  (stem? target).map fun stem => stem.map fun c => if c = '\\' then '/' else c

def includeName (t : Tok .includeFile) : Build Text :=
  let target := includeTarget t.text
  match includeName? target with
  | some name => pure name
  | none => throw (.includeExtension target t.pos)

inductive Entry where
  | pragmaOnce
  | includeName (name : Text)
  | metadata (strings : List Literal)
  | module (m : SliceIdl.Module)

namespace Entry

def isPragmaOnce : Entry → Bool
  | pragmaOnce => true
  | _ => false

def includeName? : Entry → Option Text
  | includeName name => some name
  | _ => none

def strings : Entry → List Literal
  | metadata strings => strings
  | _ => []

def module? : Entry → Option SliceIdl.Module
  | module m => some m
  | _ => none

end Entry

def TopItem.build : TopItem → Build Entry
  | pragmaOnce _ => pure .pragmaOnce
  | includeFile t => .includeName <$> Grammar.includeName t
  | metadata m => .metadata <$> m.inner.build
  | module d => .module <$> d.build

/-- A repeated include adds nothing. -/
def documentOf (entries : List Entry) : Document where
  pragmaOnce := entries.any Entry.isPragmaOnce
  includes := (entries.filterMap Entry.includeName?).eraseDups
  fileMetadata := entries.flatMap Entry.strings
  modules := entries.filterMap Entry.module?

def File.build (f : File) : Build Document :=
  documentOf <$> f.mapM TopItem.build

end SliceIdl.Grammar
