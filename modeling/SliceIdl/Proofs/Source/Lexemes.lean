import SliceIdl.Source.Scan

/-!
# How tokens are written

A lexeme is a token without its position. What texts each kind of token can have, what may stand
between two tokens, and when nothing has to, is said here without a look at how texts are cut into
tokens.
-/

set_option autoImplicit false

namespace SliceIdl

def Text.HeadNot (p : Char → Bool) (t : Text) : Prop :=
  t.head?.all fun c => !p c

structure Lexeme where
  kind : TokenKind
  text : Text
  deriving DecidableEq, Repr

def Token.lexeme (t : Token) : Lexeme :=
  ⟨t.kind, t.text⟩

namespace Lexeme
open Pattern

def IsWord (t : Text) : Prop :=
  ∃ c cs, t = c :: cs ∧ isIdentStart c ∧ ∀ d ∈ cs, isIdentRest d

def IsIdentifier (t : Text) : Prop :=
  IsWord t ∧ TokenKind.ofWord t = .ident

def marks : List (TokenKind × Text) :=
  [(.scope, [':', ':']), (.question, ['?']), (.star, ['*']), (.leftBracket, ['[']),
    (.rightBracket, [']']), (.comma, [',']), (.semicolon, [';']), (.leftBrace, ['\x7b']),
    (.rightBrace, ['\x7d']), (.leftParen, ['(']), (.rightParen, [')']), (.equal, ['=']),
    (.less, ['<']), (.greater, ['>'])]

/-- What can stand between the quotes of a string: an escape is a backslash with any character of
the same line. -/
inductive Inside : Text → Prop
  | nil : Inside []
  | char {c : Char} {t : Text} (hq : c ≠ '"') (hb : c ≠ '\\') (hn : c ≠ '\n') (h : Inside t) :
      Inside (c :: t)
  | escape {c : Char} {t : Text} (hn : c ≠ '\n') (h : Inside t) : Inside ('\\' :: c :: t)

def IsSign (t : Text) : Prop :=
  t = [] ∨ t = ['+'] ∨ t = ['-']

def IsInline (t : Text) : Prop :=
  ∀ c ∈ t, isInlineBlank c

def Within (close : Char) (t : Text) : Prop :=
  ∀ c ∈ t, c ≠ close ∧ c ≠ '\n'

/-- The texts that a token of a kind can have. Numbers with a point or a power are left out. -/
inductive Fits : Lexeme → Prop
  | word {t : Text} (h : IsWord t) : Fits ⟨.ofWord t, t⟩
  | mark {kind : TokenKind} {t : Text} (h : (kind, t) ∈ marks) : Fits ⟨kind, t⟩
  | decimal {sign digits : Text} (hs : IsSign sign) (hne : digits ≠ [])
      (hd : ∀ c ∈ digits, Text.isDecimalDigit c) : Fits ⟨.int, sign ++ digits⟩
  | hexadecimal {sign digits : Text} {x : Char} (hs : IsSign sign) (hx : x = 'x' ∨ x = 'X')
      (hne : digits ≠ []) (hd : ∀ c ∈ digits, Text.isHexDigit c) :
      Fits ⟨.int, sign ++ '0' :: x :: digits⟩
  | string {t : Text} (h : Inside t) : Fits ⟨.string, '"' :: t ++ ['"']⟩
  | pragmaOnce {a b : Text} (ha : IsInline a) (hb : IsInline b) (hne : b ≠ []) :
      Fits ⟨.pragmaOnce, '#' :: a ++ "pragma".toList ++ b ++ "once".toList⟩
  | includeAngle {a b t : Text} (ha : IsInline a) (hb : IsInline b) (hne : b ≠ [])
      (ht : Within '>' t) :
      Fits ⟨.includeFile, '#' :: a ++ "include".toList ++ b ++ '<' :: t ++ ['>']⟩
  | includeQuote {a b t : Text} (ha : IsInline a) (hb : IsInline b) (hne : b ≠ [])
      (ht : Within '"' t) :
      Fits ⟨.includeFile, '#' :: a ++ "include".toList ++ b ++ '"' :: t ++ ['"']⟩

/-- The characters with which a token of a kind would not end where it does: a word would go on,
and a number would go on or be another one. -/
def runsInto : TokenKind → Char → Bool
  | .int => fun c => isIdentRest c || Text.isDecimalDigit c || c == '.'
  | .string | .pragmaOnce | .includeFile | .scope | .question | .star | .leftBracket
  | .rightBracket | .comma | .semicolon | .leftBrace | .rightBrace | .leftParen | .rightParen
  | .equal | .less | .greater => fun _ => false
  | _ => isIdentRest

def isSpace (c : Char) : Bool :=
  c == ' ' || c == '\t' || c == '\x0c' || c == '\r' || c == '\n'

def guardWords : List Text :=
  ["ifndef".toList, "ifdef".toList, "define".toList, "endif".toList, "undef".toList, "if".toList,
    "elif".toList, "else".toList]

def OnLine (t : Text) : Prop :=
  ∀ c ∈ t, c ≠ '\n'

/-- Blanks, comments and guard lines, each of which is complete. A block comment ends where its
delimiter stands first. -/
inductive Gap : Text → Prop
  | nil : Gap []
  | space {c : Char} {g : Text} (hc : isSpace c) (h : Gap g) : Gap (c :: g)
  | lineComment {t g : Text} (ht : OnLine t) (h : Gap g) : Gap ('/' :: '/' :: t ++ '\n' :: g)
  | blockComment {t g : Text} (ht : ∀ a b, t ++ ['*'] ≠ a ++ '*' :: '/' :: b) (h : Gap g) :
      Gap ('/' :: '*' :: t ++ '*' :: '/' :: g)
  | guardLine {a w t g : Text} (ha : IsInline a) (hw : w ∈ guardWords)
      (hend : t.HeadNot Text.isWordCharacter) (ht : OnLine t) (h : Gap g) :
      Gap ('#' :: a ++ w ++ t ++ '\n' :: g)

/-- A text that is made of the given tokens with gaps between them. -/
inductive Written : List Lexeme → Text → Prop
  | nil {g : Text} (h : Gap g) : Written [] g
  | cons {l : Lexeme} {ls : List Lexeme} {g t : Text} (hg : Gap g) (hl : l.Fits)
      (hend : t.HeadNot (runsInto l.kind)) (h : Written ls t) :
      Written (l :: ls) (g ++ l.text ++ t)

end Lexeme

end SliceIdl
