import SliceIdl.Source.Pattern
import SliceIdl.Source.Token

/-!
# Terminals

The patterns of tokens and of layout (blanks, comments and guard lines), in the order in which they
are tried. The first terminal that fits decides what the first piece of a text is.
-/

set_option autoImplicit false

namespace SliceIdl

inductive Layout where
  | blanks
  | lineComment
  | blockComment
  | guardLine
  deriving DecidableEq, Repr

inductive PieceKind where
  | token (kind : TokenKind)
  | layout (layout : Layout)
  deriving DecidableEq, Repr

structure Piece where
  kind : PieceKind
  text : Text
  deriving DecidableEq, Repr

namespace Pattern

def char (c : Char) : Pattern :=
  one (· == c)

def oneOf (cs : Text) : Pattern :=
  one cs.contains

def many1 (p : Char → Bool) : Pattern :=
  seq (one p) (run p)

def sign : Pattern :=
  maybe (oneOf ['+', '-'])

def digits : Pattern :=
  many1 Text.isDecimalDigit

def power : Pattern :=
  seq (oneOf ['e', 'E']) (seq sign digits)

def floatSuffix : Pattern :=
  maybe (oneOf ['f', 'F'])

/-- A point with digits on at least one side and perhaps a power, or digits with a power. -/
def float : Pattern :=
  seq sign
    (either
      (seq
        (either (seq digits (seq (char '.') (run Text.isDecimalDigit))) (seq (char '.') digits))
        (seq (maybe power) floatSuffix))
      (seq digits (seq power floatSuffix)))

def int : Pattern :=
  seq sign (either (seq (char '0') (seq (oneOf ['x', 'X']) (many1 Text.isHexDigit))) digits)

def isIdentStart (c : Char) : Bool :=
  c.isAlpha || c == '_'

def isIdentRest (c : Char) : Bool :=
  c.isAlphanum || c == '_'

def ident : Pattern :=
  seq (one isIdentStart) (run isIdentRest)

def string : Pattern :=
  seq (char '"') (seq literalBody (char '"'))

def isInlineBlank (c : Char) : Bool :=
  c == ' ' || c == '\t'

def directive (d : Pattern) : Pattern :=
  seq (char '#') (seq (run isInlineBlank) d)

def pragmaOnce : Pattern :=
  directive (seq (word "pragma".toList) (seq (many1 isInlineBlank) (word "once".toList)))

def delimited (close : Char) : Pattern :=
  seq (run fun c => c != close && c != '\n') (char close)

def includeFile : Pattern :=
  directive (seq (word "include".toList) (seq (many1 isInlineBlank)
    (either (seq (char '<') (delimited '>')) (seq (char '"') (delimited '"')))))

/-- The first of the words that stands here as a whole word. -/
def wholeWord : List Text → Pattern
  | [] => one fun _ => false
  | w :: ws => either (seq (word w) wordEnd) (wholeWord ws)

def restOfLine : Pattern :=
  run (· != '\n')

def guardLine : Pattern :=
  directive (seq
    (wholeWord ["ifndef".toList, "ifdef".toList, "define".toList, "endif".toList, "undef".toList,
      "if".toList, "elif".toList, "else".toList])
    restOfLine)

def blanks : Pattern :=
  many1 fun c => c == ' ' || c == '\t' || c == '\x0c' || c == '\r' || c == '\n'

def lineComment : Pattern :=
  seq (word ['/', '/']) restOfLine

def blockComment : Pattern :=
  seq (word ['/', '*']) (through ['*', '/'])

end Pattern

def terminals : List (PieceKind × Pattern) :=
  [(.layout .blanks, .blanks), (.token .float, .float), (.token .int, .int),
    (.token .ident, .ident), (.token .string, .string), (.token .pragmaOnce, .pragmaOnce),
    (.token .includeFile, .includeFile), (.layout .guardLine, .guardLine),
    (.layout .lineComment, .lineComment), (.layout .blockComment, .blockComment),
    (.token .scope, .word [':', ':']), (.token .question, .char '?'), (.token .star, .char '*'),
    (.token .leftBracket, .char '['), (.token .rightBracket, .char ']'),
    (.token .comma, .char ','), (.token .semicolon, .char ';'),
    (.token .leftBrace, .char '\x7b'), (.token .rightBrace, .char '\x7d'),
    (.token .leftParen, .char '('), (.token .rightParen, .char ')'),
    (.token .equal, .char '='), (.token .less, .char '<'), (.token .greater, .char '>')]

/-- A word in the place of an identifier may turn out to be a keyword. -/
def PieceKind.refined (kind : PieceKind) (text : Text) : PieceKind :=
  if kind = .token .ident then .token (TokenKind.ofWord text) else kind

def Piece.first? (t : Text) : Option (Piece × Text) :=
  terminals.findSome? fun terminal =>
    (terminal.2.split? t).map fun r => (⟨terminal.1.refined r.1, r.1⟩, r.2)

end SliceIdl
