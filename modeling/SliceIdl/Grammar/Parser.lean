import SliceIdl.Grammar.Tree

/-!
# Recognising the grammar

A parser reads a tree off the front of a list of tokens. When it fails, it gives back the tokens
from the first one on that no continuation could have accepted; none are left if the tokens merely
ended too early. Every choice is made on the kind of the next token alone.
-/

set_option autoImplicit false

namespace SliceIdl.Grammar

abbrev Parser := StateT (List Token) (Except (List Token))

namespace Parser

variable {α : Type}

def refuse : Parser α := fun ts => .error ts

def token (kind : TokenKind) : Parser (Tok kind)
  | [] => .error []
  | t :: ts => if t.kind = kind then .ok (⟨t.text, t.pos⟩, ts) else .error (t :: ts)

/-- The kind of the next token, which stays in place. -/
def next : Parser (Option TokenKind) := fun ts => .ok (ts.head?.map Token.kind, ts)

/-- Reads a part if the next token is of the kind with which that part starts. -/
def opt (kind : TokenKind) (p : Parser α) : Parser (Option α) := do
  if (← next) = some kind then some <$> p else pure none

def repeatAtMost (more : TokenKind → Bool) (p : Parser α) : Nat → Parser (List α)
  | 0 => pure []
  | n + 1 => do
    match ← next with
    | none => pure []
    | some kind =>
      if more kind then do
        let a ← p
        let as ← repeatAtMost more p n
        pure (a :: as)
      else pure []

/-- Reads parts as long as the next token is of an admitted kind. A part has at least one token, so
there are no more parts than tokens. -/
def repeatWhile (more : TokenKind → Bool) (p : Parser α) : Parser (List α) := fun ts =>
  repeatAtMost more p ts.length ts

def tail (kind : TokenKind) (p : Parser α) : Parser (List (Tok kind × α)) :=
  repeatWhile (· == kind) do
    let t ← token kind
    let a ← p
    pure (t, a)

def stringList : Parser StringList := do
  let first ← token .string
  let more ← tail .comma (token .string)
  pure { first, more }

def metadataAfter (left : Tok .leftBracket) : Parser Metadata := do
  let strings ← stringList
  let right ← token .rightBracket
  pure { left, strings, right }

def metadata : Parser Metadata := do
  metadataAfter (← token .leftBracket)

def scopedName : Parser ScopedName := do
  let lead ← opt .scope (token .scope)
  let first ← token .ident
  let more ← tail .scope (token .ident)
  pure { lead, first, more }

def nameList (kind : TokenKind) : Parser (NameList kind) := do
  let keyword ← token kind
  let first ← scopedName
  let more ← tail .comma scopedName
  pure { keyword, first, more }

def base : Parser Base := do
  let keyword ← token .kwExtends
  let name ← scopedName
  pure { keyword, name }

def typeName : Parser TypeName := do
  let name ← scopedName
  let question ← opt .question (token .question)
  let star ← opt .star (token .star)
  pure { name, question, star }

def annotatedType : Parser AnnotatedType := do
  let metadata ← opt .leftBracket metadata
  let type ← typeName
  pure { metadata, type }

def parenInt : Parser ParenInt := do
  let left ← token .leftParen
  let value ← token .int
  let right ← token .rightParen
  pure { left, value, right }

def optionalTag : Parser OptionalTag := do
  let keyword ← token .kwOptional
  let number ← parenInt
  pure { keyword, number }

def memberType : Parser MemberType := do
  let tag ← opt .kwOptional optionalTag
  let type ← typeName
  pure { tag, type }

def constValue : Parser ConstValue := do
  match ← next with
  | some .int => .int <$> token .int
  | some .float => .float <$> token .float
  | some .string => .string <$> token .string
  | some .kwTrue => .true <$> token .kwTrue
  | some .kwFalse => .false <$> token .kwFalse
  | _ => .name <$> scopedName

def initial : Parser Initial := do
  let equal ← token .equal
  let value ← constValue
  pure { equal, value }

def dataMemberAfter (metadata : Option Metadata) (type : MemberType) (name : Tok .ident) :
    Parser DataMember := do
  let initial ← opt .equal initial
  let semicolon ← token .semicolon
  pure { metadata, type, name, initial, semicolon }

def dataMember : Parser DataMember := do
  let metadata ← opt .leftBracket metadata
  let type ← memberType
  let name ← token .ident
  dataMemberAfter metadata type name

def param : Parser Param := do
  let metadata ← opt .leftBracket metadata
  let out ← opt .kwOut (token .kwOut)
  let type ← memberType
  let name ← token .ident
  pure { metadata, out, type, name }

def paramList : Parser ParamList := do
  let first ← param
  let more ← tail .comma param
  pure { first, more }

def params : Parser (Option ParamList) := do
  if (← next) = some .rightParen then pure none else some <$> paramList

def operationAfter (metadata : Option Metadata) (idempotent : Option (Tok .kwIdempotent))
    (type : MemberType) (name : Tok .ident) : Parser Operation := do
  let left ← token .leftParen
  let params ← params
  let right ← token .rightParen
  let throws ← opt .kwThrows (nameList .kwThrows)
  let semicolon ← token .semicolon
  pure { metadata, idempotent, type, name, left, params, right, throws, semicolon }

def operation : Parser Operation := do
  let metadata ← opt .leftBracket metadata
  let idempotent ← opt .kwIdempotent (token .kwIdempotent)
  let type ← memberType
  let name ← token .ident
  operationAfter metadata idempotent type name

/-- A data member and an operation look alike up to their names, but for `idempotent`. -/
def classItem : Parser ClassItem := do
  let metadata ← opt .leftBracket metadata
  let idempotent ← opt .kwIdempotent (token .kwIdempotent)
  let type ← memberType
  let name ← token .ident
  if idempotent.isSome || (← next) = some .leftParen then
    .operation <$> operationAfter metadata idempotent type name
  else
    .member <$> dataMemberAfter metadata type name

def body (p : Parser α) : Parser (Body α) := do
  let left ← token .leftBrace
  let items ← repeatWhile (· != .rightBrace) p
  let right ← token .rightBrace
  let semicolon ← opt .semicolon (token .semicolon)
  pure { left, items, right, semicolon }

def interface (modifiers : Modifiers) : Parser Definition := do
  let keyword ← token .kwInterface
  let name ← token .ident
  if (← next) = some .semicolon then
    let semicolon ← token .semicolon
    pure (.interfaceForward { modifiers, keyword, name, semicolon })
  else
    let bases ← opt .kwExtends (nameList .kwExtends)
    let body ← body operation
    pure (.interface { modifiers, keyword, name, bases, body })

def class' (modifiers : Modifiers) : Parser Definition := do
  let keyword ← token .kwClass
  let name ← token .ident
  if (← next) = some .semicolon then
    let semicolon ← token .semicolon
    pure (.classForward { modifiers, keyword, name, semicolon })
  else
    let compactId ← opt .leftParen parenInt
    let base ← opt .kwExtends base
    let implements ← opt .kwImplements (nameList .kwImplements)
    let body ← body classItem
    pure (.class { modifiers, keyword, name, compactId, base, implements, body })

def exception (modifiers : Modifiers) : Parser Exception := do
  let keyword ← token .kwException
  let name ← token .ident
  let base ← opt .kwExtends base
  let body ← body dataMember
  pure { modifiers, keyword, name, base, body }

def struct (modifiers : Modifiers) : Parser Struct := do
  let keyword ← token .kwStruct
  let name ← token .ident
  let body ← body dataMember
  pure { modifiers, keyword, name, body }

def enumValue : Parser EnumValue := do
  let equal ← token .equal
  let value ← token .int
  pure { equal, value }

def enumerator : Parser Enumerator := do
  let name ← token .ident
  let value ← opt .equal enumValue
  pure { name, value }

/-- What follows the first enumerator: a comma in front of an identifier goes on with the list, any
other comma ends it. -/
def enumeratorsAtMost : Nat → Parser (List (Tok .comma × Enumerator) × Option (Tok .comma))
  | 0 => pure ([], none)
  | n + 1 => do
    match ← opt .comma (token .comma) with
    | none => pure ([], none)
    | some comma =>
      if (← next) = some .ident then do
        let e ← enumerator
        let (more, trailing) ← enumeratorsAtMost n
        pure ((comma, e) :: more, trailing)
      else pure ([], some comma)

def enumeratorList : Parser EnumeratorList := do
  let first ← enumerator
  let (more, trailing) ← (fun ts => enumeratorsAtMost ts.length ts)
  pure { first, more, trailing }

def enumerators : Parser (Option EnumeratorList) := do
  if (← next) = some .rightBrace then pure none else some <$> enumeratorList

def enum (modifiers : Modifiers) : Parser Enum := do
  let keyword ← token .kwEnum
  let name ← token .ident
  let left ← token .leftBrace
  let enumerators ← enumerators
  let right ← token .rightBrace
  let semicolon ← opt .semicolon (token .semicolon)
  pure { modifiers, keyword, name, left, enumerators, right, semicolon }

def sequence (modifiers : Modifiers) : Parser Sequence := do
  let keyword ← token .kwSequence
  let left ← token .less
  let element ← annotatedType
  let right ← token .greater
  let name ← token .ident
  let semicolon ← token .semicolon
  pure { modifiers, keyword, left, element, right, name, semicolon }

def dictionary (modifiers : Modifiers) : Parser Dictionary := do
  let keyword ← token .kwDictionary
  let left ← token .less
  let key ← annotatedType
  let comma ← token .comma
  let value ← annotatedType
  let right ← token .greater
  let name ← token .ident
  let semicolon ← token .semicolon
  pure { modifiers, keyword, left, key, comma, value, right, name, semicolon }

def const (metadata : Option Metadata) : Parser Const := do
  let keyword ← token .kwConst
  let type ← annotatedType
  let name ← token .ident
  let initial ← initial
  let semicolon ← token .semicolon
  pure { metadata, keyword, type, name, initial, semicolon }

/-- A module whose metadata has been read; `p` reads its definitions. -/
def module (p : Parser Definition) (metadata : Option Metadata) : Parser Module := do
  let keyword ← token .kwModule
  let name ← scopedName
  let left ← token .leftBrace
  let definitions ← repeatWhile (· != .rightBrace) p
  let right ← token .rightBrace
  let semicolon ← opt .semicolon (token .semicolon)
  pure (.mk metadata keyword name left definitions right semicolon)

/-- A definition that nests fewer modules than the given number. -/
def definition : Nat → Parser Definition
  | 0 => refuse
  | depth + 1 => do
    let metadata ← opt .leftBracket metadata
    let isLocal ← opt .kwLocal (token .kwLocal)
    let modifiers : Modifiers := { metadata, isLocal }
    match isLocal, ← next with
    | none, some .kwModule => .module <$> module (definition depth) metadata
    | none, some .kwConst => .const <$> const metadata
    | _, some .kwInterface => interface modifiers
    | _, some .kwClass => class' modifiers
    | _, some .kwException => .exception <$> exception modifiers
    | _, some .kwStruct => .struct <$> struct modifiers
    | _, some .kwEnum => .enum <$> enum modifiers
    | _, some .kwSequence => .sequence <$> sequence modifiers
    | _, some .kwDictionary => .dictionary <$> dictionary modifiers
    | _, _ => refuse

/-- A top-level module; each module inside it opens with a token of its own, which bounds the
nesting. -/
def topModule (metadata : Option Metadata) : Parser Module := fun ts =>
  module (definition ts.length) metadata ts

def topItem : Parser TopItem := do
  match ← next with
  | some .pragmaOnce => .pragmaOnce <$> token .pragmaOnce
  | some .includeFile => .includeFile <$> token .includeFile
  | some .leftBracket =>
    let left ← token .leftBracket
    if (← next) = some .leftBracket then
      let inner ← metadata
      let right ← token .rightBracket
      pure (.metadata { left, inner, right })
    else
      let metadata ← metadataAfter left
      .module <$> topModule (some metadata)
  | _ => .module <$> topModule none

def file : Parser File :=
  repeatWhile (fun _ => true) topItem

end Parser

/-- The tree of a list of tokens, or the tokens from the first unacceptable one on. -/
def File.ofTokens (ts : List Token) : Except (List Token) File :=
  (Parser.file ts).map Prod.fst

end SliceIdl.Grammar
