import SliceIdl.Text.Blank
import SliceIdl.Text.Numeral
import SliceIdl.Text.WordCharacter

/-!
# Lexical patterns

A pattern takes a piece off the front of a text. It never gives back what one of its parts has
taken: a run takes all that it can, and the first of two alternatives that fits is kept.
-/

set_option autoImplicit false

namespace SliceIdl

inductive Pattern where
  | one (p : Char → Bool)
  /-- The longest run of characters of a class, which may be empty. -/
  | run (p : Char → Bool)
  | word (w : Text)
  | seq (a b : Pattern)
  | either (a b : Pattern)
  | maybe (a : Pattern)
  /-- Nothing, but only where no word character follows. -/
  | wordEnd
  /-- The inside of a string literal: characters other than quotes, backslashes and line feeds, and
  backslashes with the character that each escapes. -/
  | literalBody
  /-- Everything up to and with the first occurrence of a word. -/
  | through (w : Text)

namespace Pattern

def literalSplit : Text → Text × Text
  | '\\' :: c :: t =>
    if c = '\n' then ([], '\\' :: c :: t)
    else ('\\' :: c :: (literalSplit t).1, (literalSplit t).2)
  | c :: t =>
    if c = '"' ∨ c = '\\' ∨ c = '\n' then ([], c :: t)
    else (c :: (literalSplit t).1, (literalSplit t).2)
  | [] => ([], [])

def throughSplit (w : Text) : Text → Option (Text × Text)
  | [] => (Text.after? w []).map fun r => (w, r)
  | c :: t =>
    match Text.after? w (c :: t) with
    | some r => some (w, r)
    | none => (throughSplit w t).map fun r => (c :: r.1, r.2)

def split? : Pattern → Text → Option (Text × Text)
  | one p, t =>
    match t with
    | c :: r => if p c then some ([c], r) else none
    | [] => none
  | run p, t => some (t.takeWhile p, t.dropWhile p)
  | word w, t => (Text.after? w t).map fun r => (w, r)
  | seq a b, t => do
    let (l, t) ← a.split? t
    let (m, r) ← b.split? t
    pure (l ++ m, r)
  | either a b, t =>
    match a.split? t with
    | some r => some r
    | none => b.split? t
  | maybe a, t =>
    match a.split? t with
    | some r => some r
    | none => some ([], t)
  | wordEnd, t => if t.head?.any Text.isWordCharacter then none else some ([], t)
  | literalBody, t => some (literalSplit t)
  | through w, t => throughSplit w t

end Pattern

end SliceIdl
