import SliceIdl.Source.Token

/-!
# The rules of the grammar

The rules as they are written down: each rule has a phrase of tokens and rules, made with
sequences, alternatives, optional parts and repetitions. What a phrase matches is defined on
lists of tokens, without a look at trees.
-/

set_option autoImplicit false

namespace SliceIdl.Grammar

inductive Rule where
  | start | topItem | pragmaOnce | includeFile | fileMetadata | metadata | typeMetadata | stringList
  | moduleDef | definition
  | interfaceDef | interfaceFwd | interfaceBases
  | classDef | classFwd | compactId | classBase | classImplements | classItem
  | exceptionDef | exceptionBase | structDef | enumDef | enumerator
  | sequenceDef | dictionaryDef | dictKey | dictValue | constDef
  | dataMember | operation | param | throwsClause
  | memberType | optionalTag | type | scopedName | constValue
  deriving DecidableEq, Repr

inductive Phrase where
  | empty
  | tok (kind : TokenKind)
  | ref (rule : Rule)
  | seq (a b : Phrase)
  | alt (a b : Phrase)
  | opt (a : Phrase)
  | star (a : Phrase)
  deriving DecidableEq, Repr

namespace Phrase

def all : List Phrase → Phrase
  | [] => empty
  | [e] => e
  | e :: es => seq e (all es)

def any (first : Phrase) : List Phrase → Phrase
  | [] => first
  | e :: es => alt first (any e es)

def list (e : Phrase) : Phrase :=
  seq e (star (seq (tok .comma) e))

def braced (e : Phrase) : Phrase :=
  all [tok .leftBrace, star e, tok .rightBrace, opt (tok .semicolon)]

end Phrase

open Phrase in
def rules : Rule → Phrase
  | .start => star (ref .topItem)
  | .topItem => any (ref .pragmaOnce) [ref .includeFile, ref .fileMetadata, ref .moduleDef]
  | .pragmaOnce => tok .pragmaOnce
  | .includeFile => tok .includeFile
  | .fileMetadata =>
    all [tok .leftBracket, tok .leftBracket, ref .stringList, tok .rightBracket, tok .rightBracket]
  | .metadata => all [tok .leftBracket, ref .stringList, tok .rightBracket]
  | .typeMetadata => all [tok .leftBracket, ref .stringList, tok .rightBracket]
  | .stringList => list (tok .string)
  | .moduleDef =>
    all [opt (ref .metadata), tok .kwModule, ref .scopedName, braced (ref .definition)]
  | .definition =>
    any (ref .moduleDef)
      [ref .interfaceDef, ref .interfaceFwd, ref .classDef, ref .classFwd, ref .exceptionDef,
        ref .structDef, ref .enumDef, ref .sequenceDef, ref .dictionaryDef, ref .constDef]
  | .interfaceDef =>
    all [opt (ref .metadata), opt (tok .kwLocal), tok .kwInterface, tok .ident,
      opt (ref .interfaceBases), braced (ref .operation)]
  | .interfaceFwd =>
    all [opt (ref .metadata), opt (tok .kwLocal), tok .kwInterface, tok .ident, tok .semicolon]
  | .interfaceBases => seq (tok .kwExtends) (list (ref .scopedName))
  | .classDef =>
    all [opt (ref .metadata), opt (tok .kwLocal), tok .kwClass, tok .ident, opt (ref .compactId),
      opt (ref .classBase), opt (ref .classImplements), braced (ref .classItem)]
  | .classFwd =>
    all [opt (ref .metadata), opt (tok .kwLocal), tok .kwClass, tok .ident, tok .semicolon]
  | .compactId => all [tok .leftParen, tok .int, tok .rightParen]
  | .classBase => seq (tok .kwExtends) (ref .scopedName)
  | .classImplements => seq (tok .kwImplements) (list (ref .scopedName))
  | .classItem => alt (ref .dataMember) (ref .operation)
  | .exceptionDef =>
    all [opt (ref .metadata), opt (tok .kwLocal), tok .kwException, tok .ident,
      opt (ref .exceptionBase), braced (ref .dataMember)]
  | .exceptionBase => seq (tok .kwExtends) (ref .scopedName)
  | .structDef =>
    all [opt (ref .metadata), opt (tok .kwLocal), tok .kwStruct, tok .ident,
      braced (ref .dataMember)]
  | .enumDef =>
    all [opt (ref .metadata), opt (tok .kwLocal), tok .kwEnum, tok .ident, tok .leftBrace,
      opt (seq (list (ref .enumerator)) (opt (tok .comma))), tok .rightBrace, opt (tok .semicolon)]
  | .enumerator => seq (tok .ident) (opt (seq (tok .equal) (tok .int)))
  | .sequenceDef =>
    all [opt (ref .metadata), opt (tok .kwLocal), tok .kwSequence, tok .less,
      opt (ref .typeMetadata), ref .type, tok .greater, tok .ident, tok .semicolon]
  | .dictionaryDef =>
    all [opt (ref .metadata), opt (tok .kwLocal), tok .kwDictionary, tok .less, ref .dictKey,
      tok .comma, ref .dictValue, tok .greater, tok .ident, tok .semicolon]
  | .dictKey => seq (opt (ref .typeMetadata)) (ref .type)
  | .dictValue => seq (opt (ref .typeMetadata)) (ref .type)
  | .constDef =>
    all [opt (ref .metadata), tok .kwConst, opt (ref .typeMetadata), ref .type, tok .ident,
      tok .equal, ref .constValue, tok .semicolon]
  | .dataMember =>
    all [opt (ref .metadata), ref .memberType, tok .ident,
      opt (seq (tok .equal) (ref .constValue)), tok .semicolon]
  | .operation =>
    all [opt (ref .metadata), opt (tok .kwIdempotent), ref .memberType, tok .ident, tok .leftParen,
      opt (list (ref .param)), tok .rightParen, opt (ref .throwsClause), tok .semicolon]
  | .param => all [opt (ref .metadata), opt (tok .kwOut), ref .memberType, tok .ident]
  | .throwsClause => seq (tok .kwThrows) (list (ref .scopedName))
  | .memberType => seq (opt (ref .optionalTag)) (ref .type)
  | .optionalTag => all [tok .kwOptional, tok .leftParen, tok .int, tok .rightParen]
  | .type => all [ref .scopedName, opt (tok .question), opt (tok .star)]
  | .scopedName => all [opt (tok .scope), tok .ident, star (seq (tok .scope) (tok .ident))]
  | .constValue =>
    any (tok .int) [tok .float, tok .string, tok .kwTrue, tok .kwFalse, ref .scopedName]

/-- What a phrase derives by the rules. -/
inductive Phrase.Matches : Phrase → List Token → Prop
  | empty : Matches .empty []
  | tok {kind : TokenKind} {t : Token} (h : t.kind = kind) : Matches (.tok kind) [t]
  | ref {rule : Rule} {ts : List Token} (h : Matches (rules rule) ts) : Matches (.ref rule) ts
  | seq {a b : Phrase} {xs ys : List Token} (ha : Matches a xs) (hb : Matches b ys) :
      Matches (.seq a b) (xs ++ ys)
  | left {a b : Phrase} {ts : List Token} (h : Matches a ts) : Matches (.alt a b) ts
  | right {a b : Phrase} {ts : List Token} (h : Matches b ts) : Matches (.alt a b) ts
  | none {a : Phrase} : Matches (.opt a) []
  | some {a : Phrase} {ts : List Token} (h : Matches a ts) : Matches (.opt a) ts
  | nil {a : Phrase} : Matches (.star a) []
  | cons {a : Phrase} {xs ys : List Token} (ha : Matches a xs) (hs : Matches (.star a) ys) :
      Matches (.star a) (xs ++ ys)

end SliceIdl.Grammar
