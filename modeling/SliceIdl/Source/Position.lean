import SliceIdl.Text.Basic

/-!
# Positions

Lines are ended by the line feed alone, columns count code points, and both start at one.
-/

set_option autoImplicit false

namespace SliceIdl

structure Position where
  line : Nat
  column : Nat
  deriving DecidableEq, Repr

namespace Position

def start : Position := ⟨1, 1⟩

def next (p : Position) (c : Char) : Position :=
  if c = '\n' then ⟨p.line + 1, 1⟩ else ⟨p.line, p.column + 1⟩

def after (p : Position) (t : Text) : Position :=
  t.foldl next p

theorem after_append (p : Position) (s t : Text) : p.after (s ++ t) = (p.after s).after t := by
  simp [after]

end Position

end SliceIdl
