import SliceIdl.Source.Token

/-!
# The grammar

One type for each rule of the language, with one constructor for each alternative and one field for
each symbol. A tree holds every token it was read from, so the grammar derives a list of tokens
exactly when some tree has that list as its `tokens`.
-/

set_option autoImplicit false

namespace SliceIdl.Grammar

structure Tok (kind : TokenKind) where
  text : Text
  pos : Position
  deriving DecidableEq, Repr

namespace Tok

variable {kind : TokenKind}

def token (t : Tok kind) : Token :=
  ⟨kind, t.text, t.pos⟩

def tokens (t : Tok kind) : List Token :=
  [t.token]

end Tok

def optTokens {α : Type} (f : α → List Token) : Option α → List Token
  | none => []
  | some a => f a

/-- The tokens of parts that all follow a token of their own. -/
def tailTokens {kind : TokenKind} {α : Type} (f : α → List Token) :
    List (Tok kind × α) → List Token
  | [] => []
  | (t, a) :: rest => t.tokens ++ f a ++ tailTokens f rest

/-- Form: `string ("," string)*` -/
structure StringList where
  first : Tok .string
  more : List (Tok .comma × Tok .string)
  deriving DecidableEq, Repr

def StringList.tokens (s : StringList) : List Token :=
  s.first.tokens ++ tailTokens Tok.tokens s.more

/-- Form: `"[" strings "]"` -/
structure Metadata where
  left : Tok .leftBracket
  strings : StringList
  right : Tok .rightBracket
  deriving DecidableEq, Repr

def Metadata.tokens (m : Metadata) : List Token :=
  m.left.tokens ++ m.strings.tokens ++ m.right.tokens

/-- Form: `"[" "[" strings "]" "]"` -/
structure FileMetadata where
  left : Tok .leftBracket
  inner : Metadata
  right : Tok .rightBracket
  deriving DecidableEq, Repr

def FileMetadata.tokens (m : FileMetadata) : List Token :=
  m.left.tokens ++ m.inner.tokens ++ m.right.tokens

/-- Form: `"::"? ident ("::" ident)*` -/
structure ScopedName where
  lead : Option (Tok .scope)
  first : Tok .ident
  more : List (Tok .scope × Tok .ident)
  deriving DecidableEq, Repr

def ScopedName.tokens (n : ScopedName) : List Token :=
  optTokens Tok.tokens n.lead ++ n.first.tokens ++ tailTokens Tok.tokens n.more

/-- Form: `keyword name ("," name)*` -/
structure NameList (keyword : TokenKind) where
  keyword : Tok keyword
  first : ScopedName
  more : List (Tok .comma × ScopedName)
  deriving DecidableEq, Repr

def NameList.tokens {keyword : TokenKind} (n : NameList keyword) : List Token :=
  n.keyword.tokens ++ n.first.tokens ++ tailTokens ScopedName.tokens n.more

/-- Form: `"extends" name` -/
structure Base where
  keyword : Tok .kwExtends
  name : ScopedName
  deriving DecidableEq, Repr

def Base.tokens (b : Base) : List Token :=
  b.keyword.tokens ++ b.name.tokens

/-- Form: `name "?"? "*"?` -/
structure TypeName where
  name : ScopedName
  question : Option (Tok .question)
  star : Option (Tok .star)
  deriving DecidableEq, Repr

def TypeName.tokens (t : TypeName) : List Token :=
  t.name.tokens ++ optTokens Tok.tokens t.question ++ optTokens Tok.tokens t.star

/-- Form: `metadata? type` -/
structure AnnotatedType where
  metadata : Option Metadata
  type : TypeName
  deriving DecidableEq, Repr

def AnnotatedType.tokens (t : AnnotatedType) : List Token :=
  optTokens Metadata.tokens t.metadata ++ t.type.tokens

/-- Form: `"(" int ")"` -/
structure ParenInt where
  left : Tok .leftParen
  value : Tok .int
  right : Tok .rightParen
  deriving DecidableEq, Repr

def ParenInt.tokens (p : ParenInt) : List Token :=
  p.left.tokens ++ p.value.tokens ++ p.right.tokens

/-- Form: `"optional" "(" int ")"` -/
structure OptionalTag where
  keyword : Tok .kwOptional
  number : ParenInt
  deriving DecidableEq, Repr

def OptionalTag.tokens (t : OptionalTag) : List Token :=
  t.keyword.tokens ++ t.number.tokens

/-- Form: `tag? type` -/
structure MemberType where
  tag : Option OptionalTag
  type : TypeName
  deriving DecidableEq, Repr

def MemberType.tokens (t : MemberType) : List Token :=
  optTokens OptionalTag.tokens t.tag ++ t.type.tokens

inductive ConstValue where
  | int (t : Tok .int)
  | float (t : Tok .float)
  | string (t : Tok .string)
  | true (t : Tok .kwTrue)
  | false (t : Tok .kwFalse)
  | name (n : ScopedName)
  deriving DecidableEq, Repr

def ConstValue.tokens : ConstValue → List Token
  | int t => t.tokens
  | float t => t.tokens
  | string t => t.tokens
  | true t => t.tokens
  | false t => t.tokens
  | name n => n.tokens

/-- Form: `"=" value` -/
structure Initial where
  equal : Tok .equal
  value : ConstValue
  deriving DecidableEq, Repr

def Initial.tokens (i : Initial) : List Token :=
  i.equal.tokens ++ i.value.tokens

/-- Form: `metadata? member_type ident ("=" value)? ";"` -/
structure DataMember where
  metadata : Option Metadata
  type : MemberType
  name : Tok .ident
  initial : Option Initial
  semicolon : Tok .semicolon
  deriving DecidableEq, Repr

def DataMember.tokens (m : DataMember) : List Token :=
  optTokens Metadata.tokens m.metadata ++ m.type.tokens ++ m.name.tokens
    ++ optTokens Initial.tokens m.initial ++ m.semicolon.tokens

/-- Form: `metadata? "out"? member_type ident` -/
structure Param where
  metadata : Option Metadata
  out : Option (Tok .kwOut)
  type : MemberType
  name : Tok .ident
  deriving DecidableEq, Repr

def Param.tokens (p : Param) : List Token :=
  optTokens Metadata.tokens p.metadata ++ optTokens Tok.tokens p.out ++ p.type.tokens
    ++ p.name.tokens

/-- Form: `param ("," param)*` -/
structure ParamList where
  first : Param
  more : List (Tok .comma × Param)
  deriving DecidableEq, Repr

def ParamList.tokens (p : ParamList) : List Token :=
  p.first.tokens ++ tailTokens Param.tokens p.more

def ParamList.toList (p : ParamList) : List Param :=
  p.first :: p.more.map Prod.snd

/-- Form: `metadata? "idempotent"? member_type ident "(" params? ")" throws? ";"` -/
structure Operation where
  metadata : Option Metadata
  idempotent : Option (Tok .kwIdempotent)
  type : MemberType
  name : Tok .ident
  left : Tok .leftParen
  params : Option ParamList
  right : Tok .rightParen
  throws : Option (NameList .kwThrows)
  semicolon : Tok .semicolon
  deriving DecidableEq, Repr

def Operation.tokens (o : Operation) : List Token :=
  optTokens Metadata.tokens o.metadata ++ optTokens Tok.tokens o.idempotent ++ o.type.tokens
    ++ o.name.tokens ++ o.left.tokens ++ optTokens ParamList.tokens o.params ++ o.right.tokens
    ++ optTokens NameList.tokens o.throws ++ o.semicolon.tokens

inductive ClassItem where
  | member (m : DataMember)
  | operation (o : Operation)
  deriving DecidableEq, Repr

def ClassItem.tokens : ClassItem → List Token
  | member m => m.tokens
  | operation o => o.tokens

/-- Form: `"{" item* "}" ";"?` -/
structure Body (α : Type) where
  left : Tok .leftBrace
  items : List α
  right : Tok .rightBrace
  semicolon : Option (Tok .semicolon)
  deriving DecidableEq, Repr

def Body.tokens {α : Type} (f : α → List Token) (b : Body α) : List Token :=
  b.left.tokens ++ b.items.flatMap f ++ b.right.tokens ++ optTokens Tok.tokens b.semicolon

/-- Form: `metadata? "local"?`, what may stand in front of most definitions. -/
structure Modifiers where
  metadata : Option Metadata
  isLocal : Option (Tok .kwLocal)
  deriving DecidableEq, Repr

def Modifiers.tokens (m : Modifiers) : List Token :=
  optTokens Metadata.tokens m.metadata ++ optTokens Tok.tokens m.isLocal

/-- Form: `modifiers "interface" ident bases? body` -/
structure Interface where
  modifiers : Modifiers
  keyword : Tok .kwInterface
  name : Tok .ident
  bases : Option (NameList .kwExtends)
  body : Body Operation
  deriving DecidableEq, Repr

def Interface.tokens (d : Interface) : List Token :=
  d.modifiers.tokens ++ d.keyword.tokens ++ d.name.tokens ++ optTokens NameList.tokens d.bases
    ++ d.body.tokens Operation.tokens

/-- Form: `modifiers keyword ident ";"` -/
structure Forward (keyword : TokenKind) where
  modifiers : Modifiers
  keyword : Tok keyword
  name : Tok .ident
  semicolon : Tok .semicolon
  deriving DecidableEq, Repr

def Forward.tokens {keyword : TokenKind} (d : Forward keyword) : List Token :=
  d.modifiers.tokens ++ d.keyword.tokens ++ d.name.tokens ++ d.semicolon.tokens

/-- Form: `modifiers "class" ident ("(" int ")")? base? implements? body` -/
structure Class where
  modifiers : Modifiers
  keyword : Tok .kwClass
  name : Tok .ident
  compactId : Option ParenInt
  base : Option Base
  implements : Option (NameList .kwImplements)
  body : Body ClassItem
  deriving DecidableEq, Repr

def Class.tokens (d : Class) : List Token :=
  d.modifiers.tokens ++ d.keyword.tokens ++ d.name.tokens ++ optTokens ParenInt.tokens d.compactId
    ++ optTokens Base.tokens d.base ++ optTokens NameList.tokens d.implements
    ++ d.body.tokens ClassItem.tokens

/-- Form: `modifiers "exception" ident base? body` -/
structure Exception where
  modifiers : Modifiers
  keyword : Tok .kwException
  name : Tok .ident
  base : Option Base
  body : Body DataMember
  deriving DecidableEq, Repr

def Exception.tokens (d : Exception) : List Token :=
  d.modifiers.tokens ++ d.keyword.tokens ++ d.name.tokens ++ optTokens Base.tokens d.base
    ++ d.body.tokens DataMember.tokens

/-- Form: `modifiers "struct" ident body` -/
structure Struct where
  modifiers : Modifiers
  keyword : Tok .kwStruct
  name : Tok .ident
  body : Body DataMember
  deriving DecidableEq, Repr

def Struct.tokens (d : Struct) : List Token :=
  d.modifiers.tokens ++ d.keyword.tokens ++ d.name.tokens ++ d.body.tokens DataMember.tokens

/-- Form: `"=" int` -/
structure EnumValue where
  equal : Tok .equal
  value : Tok .int
  deriving DecidableEq, Repr

def EnumValue.tokens (v : EnumValue) : List Token :=
  v.equal.tokens ++ v.value.tokens

/-- Form: `ident ("=" int)?` -/
structure Enumerator where
  name : Tok .ident
  value : Option EnumValue
  deriving DecidableEq, Repr

def Enumerator.tokens (e : Enumerator) : List Token :=
  e.name.tokens ++ optTokens EnumValue.tokens e.value

/-- Form: `enumerator ("," enumerator)* ","?` -/
structure EnumeratorList where
  first : Enumerator
  more : List (Tok .comma × Enumerator)
  trailing : Option (Tok .comma)
  deriving DecidableEq, Repr

def EnumeratorList.tokens (l : EnumeratorList) : List Token :=
  l.first.tokens ++ tailTokens Enumerator.tokens l.more ++ optTokens Tok.tokens l.trailing

def EnumeratorList.toList (l : EnumeratorList) : List Enumerator :=
  l.first :: l.more.map Prod.snd

/-- Form: `modifiers "enum" ident "{" enumerators? "}" ";"?` -/
structure Enum where
  modifiers : Modifiers
  keyword : Tok .kwEnum
  name : Tok .ident
  left : Tok .leftBrace
  enumerators : Option EnumeratorList
  right : Tok .rightBrace
  semicolon : Option (Tok .semicolon)
  deriving DecidableEq, Repr

def Enum.tokens (d : Enum) : List Token :=
  d.modifiers.tokens ++ d.keyword.tokens ++ d.name.tokens ++ d.left.tokens
    ++ optTokens EnumeratorList.tokens d.enumerators ++ d.right.tokens
    ++ optTokens Tok.tokens d.semicolon

/-- Form: `modifiers "sequence" "<" metadata? type ">" ident ";"` -/
structure Sequence where
  modifiers : Modifiers
  keyword : Tok .kwSequence
  left : Tok .less
  element : AnnotatedType
  right : Tok .greater
  name : Tok .ident
  semicolon : Tok .semicolon
  deriving DecidableEq, Repr

def Sequence.tokens (d : Sequence) : List Token :=
  d.modifiers.tokens ++ d.keyword.tokens ++ d.left.tokens ++ d.element.tokens ++ d.right.tokens
    ++ d.name.tokens ++ d.semicolon.tokens

/-- Form: `modifiers "dictionary" "<" metadata? type "," metadata? type ">" ident ";"` -/
structure Dictionary where
  modifiers : Modifiers
  keyword : Tok .kwDictionary
  left : Tok .less
  key : AnnotatedType
  comma : Tok .comma
  value : AnnotatedType
  right : Tok .greater
  name : Tok .ident
  semicolon : Tok .semicolon
  deriving DecidableEq, Repr

def Dictionary.tokens (d : Dictionary) : List Token :=
  d.modifiers.tokens ++ d.keyword.tokens ++ d.left.tokens ++ d.key.tokens ++ d.comma.tokens
    ++ d.value.tokens ++ d.right.tokens ++ d.name.tokens ++ d.semicolon.tokens

/-- Form: `metadata? "const" metadata? type ident "=" value ";"` -/
structure Const where
  metadata : Option Metadata
  keyword : Tok .kwConst
  type : AnnotatedType
  name : Tok .ident
  initial : Initial
  semicolon : Tok .semicolon
  deriving DecidableEq, Repr

def Const.tokens (d : Const) : List Token :=
  optTokens Metadata.tokens d.metadata ++ d.keyword.tokens ++ d.type.tokens ++ d.name.tokens
    ++ d.initial.tokens ++ d.semicolon.tokens

mutual

/-- Form: `metadata? "module" name "{" definition* "}" ";"?` -/
inductive Module where
  | mk (metadata : Option Metadata) (keyword : Tok .kwModule) (name : ScopedName)
    (left : Tok .leftBrace) (definitions : List Definition) (right : Tok .rightBrace)
    (semicolon : Option (Tok .semicolon))

inductive Definition where
  | module (d : Module)
  | interface (d : Interface)
  | interfaceForward (d : Forward .kwInterface)
  | class (d : Class)
  | classForward (d : Forward .kwClass)
  | exception (d : Exception)
  | struct (d : Struct)
  | enum (d : Enum)
  | sequence (d : Sequence)
  | dictionary (d : Dictionary)
  | const (d : Const)

end

mutual

def Module.tokens : Module → List Token
  | .mk metadata keyword name left definitions right semicolon =>
    optTokens Metadata.tokens metadata ++ keyword.tokens ++ name.tokens ++ left.tokens
      ++ definitionsTokens definitions ++ right.tokens ++ optTokens Tok.tokens semicolon

def Definition.tokens : Definition → List Token
  | .module d => d.tokens
  | .interface d => d.tokens
  | .interfaceForward d => d.tokens
  | .class d => d.tokens
  | .classForward d => d.tokens
  | .exception d => d.tokens
  | .struct d => d.tokens
  | .enum d => d.tokens
  | .sequence d => d.tokens
  | .dictionary d => d.tokens
  | .const d => d.tokens

def definitionsTokens : List Definition → List Token
  | [] => []
  | d :: ds => d.tokens ++ definitionsTokens ds

end

theorem definitionsTokens_eq_flatMap (ds : List Definition) :
    definitionsTokens ds = ds.flatMap Definition.tokens := by
  induction ds with
  | nil => rfl
  | cons d ds ih => rw [definitionsTokens, List.flatMap_cons, ih]

inductive TopItem where
  | pragmaOnce (t : Tok .pragmaOnce)
  | includeFile (t : Tok .includeFile)
  | metadata (m : FileMetadata)
  | module (d : Module)

def TopItem.tokens : TopItem → List Token
  | pragmaOnce t => t.tokens
  | includeFile t => t.tokens
  | metadata m => m.tokens
  | module d => d.tokens

abbrev File := List TopItem

def File.tokens (f : File) : List Token :=
  f.flatMap TopItem.tokens

/-- The grammar derives a list of tokens when some file is spelled by it. -/
def Derives (ts : List Token) : Prop :=
  ∃ f : File, File.tokens f = ts

end SliceIdl.Grammar
