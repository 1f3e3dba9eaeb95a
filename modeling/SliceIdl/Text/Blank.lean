import SliceIdl.Text.Basic

/-!
# Blank characters and line breaks

Two sets that differ: what is trimmed from the ends of an include target, and what ends a line of
a message. The blanks of the source language are a third set and belong to its tokens.
-/

set_option autoImplicit false

namespace SliceIdl.Text

def isBlank (c : Char) : Bool :=
  inRanges [(9, 13), (28, 32), (133, 133), (160, 160), (5760, 5760), (8192, 8202), (8232, 8233),
    (8239, 8239), (8287, 8287), (12288, 12288)] c

def isLineBreak (c : Char) : Bool :=
  inRanges [(10, 13), (28, 30), (133, 133), (8232, 8233)] c

def trimmed (t : Text) : Text :=
  ((t.dropWhile isBlank).reverse.dropWhile isBlank).reverse

end SliceIdl.Text
