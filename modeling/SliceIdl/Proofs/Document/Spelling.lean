import Mathlib.Computability.Language
import SliceIdl.Proofs.Document.Literals
import SliceIdl.Proofs.Document.WellFormed

/-!
# How documents are written

The spelling of a part of a document is the set of the token lists that it can be written as: a
product is one part behind the other, and `1 +` a part that may be left out. Everything that a
writer is free to choose is in these sets: how numbers, strings and include lines are written,
semicolons behind braces, a comma behind the last enumerator, the order in which members and
operations of a class are mixed, and the order of the items of a file.
-/

set_option autoImplicit false

abbrev Spellings : Type :=
  Language SliceIdl.Lexeme

namespace SliceIdl
open Lexeme
open scoped Computability

namespace Spelling

def token (kind : TokenKind) (p : Text → Prop) : Spellings :=
  {ls | ∃ t, p t ∧ ls = [⟨kind, t⟩]}

def mark (kind : TokenKind) : Spellings :=
  token kind fun t => (kind, t) ∈ marks

def keyword (kind : TokenKind) : Spellings :=
  token kind fun t => (t, kind) ∈ TokenKind.keywords

def ident (name : Text) : Spellings :=
  token .ident (· = name)

def int (n : Int) : Spellings :=
  token .int (Literal.IntText n)

def string (s : Literal) : Spellings :=
  token .string fun t => ∃ u, Literal.StringText s u ∧ t = '"' :: u ++ ['"']

def flag (b : Bool) (l : Spellings) : Spellings :=
  if b then l else 1

def listed : List Spellings → Spellings
  | [] => 1
  | l :: ls => l * (ls.map (mark .comma * ·)).prod

def bracketed : List Literal → Spellings
  | [] => 1
  | ss => mark .leftBracket * listed (ss.map string) * mark .rightBracket

def scopedName (n : Text) : Spellings :=
  {ls | ls ∈ (1 + mark .scope) * token .ident IsIdentifier *
      (mark .scope * token .ident IsIdentifier)∗ ∧ ls.flatMap Lexeme.text = n}

def nameList (kind : TokenKind) : List Text → Spellings
  | [] => 1
  | ns => keyword kind * listed (ns.map scopedName)

def parenInt (n : Int) : Spellings :=
  mark .leftParen * int n * mark .rightParen

def modifiers (ss : List Literal) (isLocal : Bool) : Spellings :=
  bracketed ss * flag isLocal (keyword .kwLocal)

def body (items : Spellings) : Spellings :=
  mark .leftBrace * items * mark .rightBrace * (1 + mark .semicolon)

end Spelling

open Spelling

def TypeRef.spelling (t : TypeRef) : Spellings :=
  scopedName t.name * flag t.optional (mark .question) * flag t.proxy (mark .star)

def TypeRef.taggedSpelling (tag : Option Nat) (t : TypeRef) : Spellings :=
  tag.elim 1 (fun n => keyword .kwOptional * parenInt n) * t.spelling

/-- No text is given for a float. -/
def ConstValue.spelling : ConstValue → Spellings
  | int n => Spelling.int n
  | float _ => 0
  | string s => Spelling.string s
  | bool b => keyword (if b then .kwTrue else .kwFalse)
  | name n => scopedName n

def ConstValue.initialSpelling (v : ConstValue) : Spellings :=
  mark .equal * v.spelling

def DataMember.spelling (m : DataMember) : Spellings :=
  bracketed m.metadata * m.type.taggedSpelling m.tag * ident m.name
    * m.default.elim 1 ConstValue.initialSpelling * mark .semicolon

def Param.spelling (p : Param) : Spellings :=
  bracketed p.metadata * flag p.out (keyword .kwOut) * p.type.taggedSpelling p.tag * ident p.name

def Operation.spelling (o : Operation) : Spellings :=
  bracketed o.metadata * flag o.idempotent (keyword .kwIdempotent)
    * o.returnType.taggedSpelling o.returnTag * ident o.name * mark .leftParen
    * listed (o.params.map Param.spelling) * mark .rightParen * nameList .kwThrows o.throws
    * mark .semicolon

def Interface.spelling (d : Interface) : Spellings :=
  modifiers d.metadata d.isLocal * keyword .kwInterface * ident d.name
    * nameList .kwExtends d.bases * body (d.operations.map Operation.spelling).prod

/-- Members and operations of a class in any order that keeps the order of each of the lists. -/
def Class.itemsSpelling (d : Class) : Spellings :=
  {ls | ∃ items : List (DataMember ⊕ Operation),
    items.filterMap Sum.getLeft? = d.members ∧ items.filterMap Sum.getRight? = d.operations ∧
    ls ∈ (items.map (Sum.elim DataMember.spelling Operation.spelling)).prod}

def baseSpelling (base : Option Text) : Spellings :=
  base.elim 1 fun n => keyword .kwExtends * scopedName n

def Class.spelling (d : Class) : Spellings :=
  modifiers d.metadata d.isLocal * keyword .kwClass * ident d.name
    * d.compactId.elim 1 parenInt * baseSpelling d.base
    * nameList .kwImplements d.implements * body d.itemsSpelling

def ForwardKind.keyword : ForwardKind → TokenKind
  | ofInterface => .kwInterface
  | ofClass => .kwClass

def Forward.spelling (d : Forward) : Spellings :=
  modifiers d.metadata d.isLocal * keyword d.kind.keyword * ident d.name * mark .semicolon

def Exception.spelling (d : Exception) : Spellings :=
  modifiers d.metadata d.isLocal * keyword .kwException * ident d.name * baseSpelling d.base
    * body (d.members.map DataMember.spelling).prod

def Struct.spelling (d : Struct) : Spellings :=
  modifiers d.metadata d.isLocal * keyword .kwStruct * ident d.name
    * body (d.members.map DataMember.spelling).prod

def Enumerator.spelling (e : Enumerator) : Spellings :=
  ident e.name * e.value.elim 1 fun n => mark .equal * int n

def Enum.spelling (d : Enum) : Spellings :=
  modifiers d.metadata d.isLocal * keyword .kwEnum * ident d.name
    * body (listed (d.enumerators.map Enumerator.spelling) * (1 + mark .comma))

def Sequence.spelling (d : Sequence) : Spellings :=
  modifiers d.metadata d.isLocal * keyword .kwSequence * mark .less
    * (bracketed d.elementMetadata * d.elementType.spelling) * mark .greater * ident d.name
    * mark .semicolon

def Dictionary.spelling (d : Dictionary) : Spellings :=
  modifiers d.metadata d.isLocal * keyword .kwDictionary * mark .less
    * (bracketed d.keyMetadata * d.keyType.spelling) * mark .comma
    * (bracketed d.valueMetadata * d.valueType.spelling) * mark .greater * ident d.name
    * mark .semicolon

def Const.spelling (d : Const) : Spellings :=
  bracketed d.metadata * keyword .kwConst * (bracketed d.typeMetadata * d.type.spelling)
    * ident d.name * d.value.initialSpelling * mark .semicolon

mutual

def Module.spelling : Module → Spellings
  | .mk name _ definitions ss =>
    bracketed ss * keyword .kwModule * scopedName name * body (definitionsSpelling definitions)

def Definition.spelling : Definition → Spellings
  | .module d => d.spelling
  | .interface d => d.spelling
  | .class d => d.spelling
  | .forward d => d.spelling
  | .exception d => d.spelling
  | .struct d => d.spelling
  | .enum d => d.spelling
  | .sequence d => d.spelling
  | .dictionary d => d.spelling
  | .const d => d.spelling

def definitionsSpelling : List Definition → Spellings
  | [] => 1
  | d :: ds => d.spelling * definitionsSpelling ds

end

open Grammar in
def Grammar.Entry.spelling : Entry → Spellings
  | pragmaOnce => token .pragmaOnce fun _ => True
  | includeName n => token .includeFile (IncludeText n)
  | metadata ss => mark .leftBracket * bracketed ss * mark .rightBracket
  | module m => m.spelling

open Grammar in
/-- The items that a file can have for a document. An item adds itself in front of what the items
behind it make up; an include line that repeats a name only moves it to the front. -/
inductive Document.Arranged : Document → List Entry → Prop
  | nil : Arranged ⟨false, [], [], []⟩ []
  | pragmaOnce {d : Document} {es : List Entry} (h : Arranged d es) :
      Arranged { d with pragmaOnce := true } (.pragmaOnce :: es)
  | includeName {d : Document} {es : List Entry} (n : Text) (h : Arranged d es) :
      Arranged { d with includes := n :: d.includes.filter (· ≠ n) } (.includeName n :: es)
  | metadata {d : Document} {es : List Entry} {ss : List Literal} (hne : ss ≠ [])
      (h : Arranged d es) :
      Arranged { d with fileMetadata := ss ++ d.fileMetadata } (.metadata ss :: es)
  | module {d : Document} {es : List Entry} (m : Module) (h : Arranged d es) :
      Arranged { d with modules := m :: d.modules } (.module m :: es)

def Document.spelling (d : Document) : Spellings :=
  {ls | ∃ es, d.Arranged es ∧ ls ∈ (es.map Grammar.Entry.spelling).prod}

/-- A text that is a spelling of the document, with any gaps between its tokens. -/
def Document.Spelled (d : Document) (text : Text) : Prop :=
  ∃ ls ∈ d.spelling, Written ls text

end SliceIdl
