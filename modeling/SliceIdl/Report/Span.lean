import SliceIdl.Text.Numeral

/-!
# Spans

What is known of the place of a problem: a file, a line and a column, each of which may be missing.
A location that is itself a span stays as it is unless it lacks a file that is known.
-/

set_option autoImplicit false

namespace SliceIdl

structure Span where
  file : Option Text
  line : Option Int
  column : Option Int
  deriving DecidableEq, Repr

inductive Location where
  | unknown
  | span (s : Span)
  | attributes (file : Option Text) (line column : Option Int)
  deriving DecidableEq, Repr

namespace Span

def nowhere : Span := ⟨none, none, none⟩

def isSettled (file : Option Text) : Location → Bool
  | .span s => s.file.isSome || file.isNone
  | _ => false

/-- An empty file name of a mere location counts as missing. -/
def ofLocation (file : Option Text) : Location → Span
  | .unknown => ⟨file, none, none⟩
  | .span s => if isSettled file (.span s) then s else ⟨file, s.line, s.column⟩
  | .attributes own line column =>
    match own with
    | some (c :: t) => ⟨some (c :: t), line, column⟩
    | _ => ⟨file, line, column⟩

def showNumber : Option Int → Text
  | none => ['?']
  | some n => Text.ofInt n

def toText (s : Span) : Text :=
  let file := match s.file with
    | none | some [] => "<unknown>".toList
    | some f => f
  file ++ ':' :: showNumber s.line ++ ':' :: showNumber s.column

end Span

end SliceIdl
