import SliceIdl.Json.Basic
import SliceIdl.Text.Quoted

/-!
# Printing JSON

The printed text is ASCII: what is not a printable ASCII character is escaped, a code point beyond
the basic plane as a pair of surrogates. A style says what stands after an opening bracket, between
two items and before a closing bracket; `indented` puts every item on a line of its own, `compact`
puts all on one line.
-/

set_option autoImplicit false

namespace SliceIdl.Json

def escapedUnit (n : Nat) : Text :=
  '\\' :: 'u' :: Text.hexDigits 4 n

def escaped (c : CodePoint) : Text :=
  let n := c.val
  if n = 34 then ['\\', '"']
  else if n = 92 then ['\\', '\\']
  else if n = 10 then ['\\', 'n']
  else if n = 13 then ['\\', 'r']
  else if n = 9 then ['\\', 't']
  else if n = 12 then ['\\', 'f']
  else if n = 8 then ['\\', 'b']
  else if 32 ≤ n ∧ n ≤ 126 then [Char.ofNat n]
  else if n < 0x10000 then escapedUnit n
  else
    escapedUnit (0xD800 + (n - 0x10000) / 0x400) ++ escapedUnit (0xDC00 + (n - 0x10000) % 0x400)

def printString (s : List CodePoint) : Text :=
  '"' :: s.flatMap escaped ++ ['"']

def printFloat (x : Binary64) : Text :=
  x.toText "Infinity".toList

structure Style where
  margin : Nat → Text
  separator : Nat → Text

def Style.indented : Style where
  margin depth := '\n' :: List.replicate (2 * depth) ' '
  separator depth := ',' :: '\n' :: List.replicate (2 * depth) ' '

def Style.compact : Style where
  margin _ := []
  separator _ := [',', ' ']

mutual

/-- Prints a value in front of a text, so that no part of it is copied again. -/
def printOnto (style : Style) (depth : Nat) : Json → Text → Text
  | null, rest => "null".toList ++ rest
  | bool true, rest => "true".toList ++ rest
  | bool false, rest => "false".toList ++ rest
  | int n, rest => Text.ofInt n ++ rest
  | float x, rest => printFloat x ++ rest
  | str s, rest => printString s ++ rest
  | arr [], rest => '[' :: ']' :: rest
  | arr (v :: vs), rest =>
    '[' :: (style.margin (depth + 1) ++ printOnto style (depth + 1) v
      (printItemsOnto style (depth + 1) vs (style.margin depth ++ ']' :: rest)))
  | obj [], rest => '\x7b' :: '\x7d' :: rest
  | obj ((k, v) :: ms), rest =>
    '\x7b' :: (style.margin (depth + 1) ++ (printString k ++ ':' :: ' '
      :: printOnto style (depth + 1) v
        (printMembersOnto style (depth + 1) ms (style.margin depth ++ '\x7d' :: rest))))

def printItemsOnto (style : Style) (depth : Nat) : List Json → Text → Text
  | [], rest => rest
  | v :: vs, rest =>
    style.separator depth ++ printOnto style depth v (printItemsOnto style depth vs rest)

def printMembersOnto (style : Style) (depth : Nat) :
    List (List CodePoint × Json) → Text → Text
  | [], rest => rest
  | (k, v) :: ms, rest =>
    style.separator depth ++ (printString k ++ ':' :: ' '
      :: printOnto style depth v (printMembersOnto style depth ms rest))

end

mutual

def hasLongNumber : Json → Bool
  | int n => Text.tooLongToWrite n
  | arr vs => anyLongNumber vs
  | obj ms => anyLongMember ms
  | _ => false

def anyLongNumber : List Json → Bool
  | [] => false
  | v :: vs => hasLongNumber v || anyLongNumber vs

def anyLongMember : List (List CodePoint × Json) → Bool
  | [] => false
  | (_, v) :: ms => hasLongNumber v || anyLongMember ms

end

/-- The indented text of a value, if every whole number in it can be written. -/
def render? (v : Json) : Option Text :=
  if v.hasLongNumber then none else some (printOnto .indented 0 v [])

def compact (v : Json) : Text :=
  printOnto .compact 0 v []

end SliceIdl.Json
