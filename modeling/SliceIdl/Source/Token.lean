import SliceIdl.Source.Position

/-!
# Tokens

The kinds of significant tokens, their names in messages and the words that are reserved. A token
carries the text it was read from and the position of its first character.
-/

set_option autoImplicit false

namespace SliceIdl

inductive TokenKind where
  | kwModule | kwInterface | kwExtends | kwClass | kwImplements | kwException | kwStruct | kwEnum
  | kwSequence | kwDictionary | kwConst | kwThrows | kwOptional | kwLocal | kwIdempotent | kwOut
  | kwTrue | kwFalse
  | ident | int | float | string | pragmaOnce | includeFile
  | scope | question | star | leftBracket | rightBracket | comma | semicolon | leftBrace
  | rightBrace | leftParen | rightParen | equal | less | greater
  deriving DecidableEq, Repr

namespace TokenKind

def label : TokenKind → String
  | kwModule => "MODULE"
  | kwInterface => "INTERFACE"
  | kwExtends => "EXTENDS"
  | kwClass => "CLASS"
  | kwImplements => "IMPLEMENTS"
  | kwException => "EXCEPTION"
  | kwStruct => "STRUCT"
  | kwEnum => "ENUM"
  | kwSequence => "SEQUENCE"
  | kwDictionary => "DICTIONARY"
  | kwConst => "CONST"
  | kwThrows => "THROWS"
  | kwOptional => "OPTIONAL"
  | kwLocal => "LOCAL"
  | kwIdempotent => "IDEMPOTENT"
  | kwOut => "OUT"
  | kwTrue => "TRUE"
  | kwFalse => "FALSE"
  | ident => "IDENT"
  | int => "INT"
  | float => "FLOAT"
  | string => "STRING"
  | pragmaOnce => "PRAGMA_ONCE"
  | includeFile => "INCLUDE"
  | scope => "SCOPE"
  | question => "QMARK"
  | star => "STAR"
  | leftBracket => "LSQB"
  | rightBracket => "RSQB"
  | comma => "COMMA"
  | semicolon => "SEMICOLON"
  | leftBrace => "LBRACE"
  | rightBrace => "RBRACE"
  | leftParen => "LPAR"
  | rightParen => "RPAR"
  | equal => "EQUAL"
  | less => "LESSTHAN"
  | greater => "MORETHAN"

def keywords : List (Text × TokenKind) :=
  [("module".toList, kwModule), ("interface".toList, kwInterface), ("extends".toList, kwExtends),
    ("class".toList, kwClass), ("implements".toList, kwImplements),
    ("exception".toList, kwException), ("struct".toList, kwStruct), ("enum".toList, kwEnum),
    ("sequence".toList, kwSequence), ("dictionary".toList, kwDictionary),
    ("const".toList, kwConst), ("throws".toList, kwThrows), ("optional".toList, kwOptional),
    ("local".toList, kwLocal), ("idempotent".toList, kwIdempotent), ("out".toList, kwOut),
    ("true".toList, kwTrue), ("false".toList, kwFalse)]

/-- The kind of a word: that of the keyword if the whole word is one, else identifier. -/
def ofWord (w : Text) : TokenKind :=
  (keywords.lookup w).getD ident

end TokenKind

structure Token where
  kind : TokenKind
  text : Text
  pos : Position
  deriving DecidableEq, Repr

end SliceIdl
