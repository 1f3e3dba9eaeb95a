import SliceIdl.Source.Token
import SliceIdl.Text.Blank
import SliceIdl.Text.Numeral
import SliceIdl.Text.Quoted

/-!
# Reasons to refuse a source text

A text is refused because it is not a text of the grammar, or because a tree of the grammar breaks
a rule of its own. Each reason knows its position, except for numerals that are too long.
-/

set_option autoImplicit false

namespace SliceIdl

inductive Rejection where
  | includeExtension (target : Text) (pos : Position)
  | emptyStruct (name : Text) (pos : Position)
  | emptyEnum (name : Text) (pos : Position)
  | duplicateParam (param operation : Text) (pos : Position)
  | negativeTag (tag : Int) (pos : Position)
  | stringLiteral (token : Text) (pos : Position)
  | longNumeral (digits : Nat)
  | longNegativeTag
  deriving DecidableEq, Repr

inductive SyntaxError where
  | unmatchedCharacter (c : Char) (pos : Position)
  | unexpectedToken (token : Token)
  | unexpectedEnd (pos : Position)
  | rejected (reason : Rejection)
  deriving DecidableEq, Repr

def digitLimitMessage (detail : Text) : Text :=
  "Exceeds the limit (4300 digits) for integer string conversion".toList ++ detail
    ++ "; use sys.set_int_max_str_digits() to increase the limit".toList

namespace Rejection

def pos? : Rejection → Option Position
  | includeExtension _ pos | emptyStruct _ pos | emptyEnum _ pos | duplicateParam _ _ pos
  | negativeTag _ pos | stringLiteral _ pos => some pos
  | longNumeral _ | longNegativeTag => none

def message : Rejection → Text
  | includeExtension target _ =>
    "included file must have the .ice extension: ".toList ++ Text.quoted target
  | emptyStruct name _ => "struct ".toList ++ name ++ " must have at least one member".toList
  | emptyEnum name _ => "enum ".toList ++ name ++ " must have at least one enumerator".toList
  | duplicateParam param operation _ =>
    "duplicate parameter ".toList ++ Text.quoted param ++ " in operation ".toList ++ operation
  | negativeTag tag _ => "optional tag must not be negative: ".toList ++ Text.ofInt tag
  | stringLiteral token _ => "invalid string literal ".toList ++ token
  | longNumeral digits =>
    digitLimitMessage (": value has ".toList ++ Text.ofNat digits ++ " digits".toList)
  | longNegativeTag => digitLimitMessage []

end Rejection

namespace SyntaxError

def pos? : SyntaxError → Option Position
  | unmatchedCharacter _ pos | unexpectedEnd pos => some pos
  | unexpectedToken token => some token.pos
  | rejected reason => reason.pos?

def unexpectedMessage (label : Text) (text : Text) (pos : Position) : Text :=
  "Unexpected token Token('".toList ++ label ++ "', ".toList ++ Text.quoted text
    ++ ") at line ".toList ++ Text.ofNat pos.line ++ ", column ".toList ++ Text.ofNat pos.column
    ++ ['.']

/-- The message is a single line, so it ends in front of a character that breaks lines. -/
def message : SyntaxError → Text
  | unmatchedCharacter c pos =>
    "No terminal matches '".toList ++
      if Text.isLineBreak c then []
      else c :: "' in the current parser context, at line ".toList ++ Text.ofNat pos.line
        ++ " col ".toList ++ Text.ofNat pos.column
  | unexpectedToken token => unexpectedMessage token.kind.label.toList token.text token.pos
  | unexpectedEnd pos => unexpectedMessage "$END".toList [] pos
  | rejected reason => reason.message

end SyntaxError

end SliceIdl
