import SliceIdl.Json.Basic

/-!
# Reading JSON

A strict reader of RFC 8259 texts. A number without fraction and exponent is a whole number, any
other is rounded to binary64. A high surrogate followed by a low one names a single code point.
-/

set_option autoImplicit false

namespace SliceIdl.Json

def isSpace (c : Char) : Bool :=
  c == ' ' || c == '\t' || c == '\n' || c == '\r'

def skipSpace (t : Text) : Text :=
  t.dropWhile isSpace

def hexUnit? (a b c d : Char) : Option CodePoint := do
  let a ← Text.hexValue? a
  let b ← Text.hexValue? b
  let c ← Text.hexValue? c
  let d ← Text.hexValue? d
  CodePoint.ofNat? (((a * 16 + b) * 16 + c) * 16 + d)

def simpleEscape? : Char → Option CodePoint
  | '"' => some 34
  | '\\' => some 92
  | '/' => some 47
  | 'b' => some 8
  | 'f' => some 12
  | 'n' => some 10
  | 'r' => some 13
  | 't' => some 9
  | _ => none

/-- The units of a string up to its closing quote, and what follows the quote. -/
def readUnits : Text → Option (List CodePoint × Text)
  | [] => none
  | '"' :: t => some ([], t)
  | '\\' :: 'u' :: a :: b :: c :: d :: t => do
    let unit ← hexUnit? a b c d
    let (units, rest) ← readUnits t
    pure (unit :: units, rest)
  | '\\' :: e :: t => do
    let unit ← simpleEscape? e
    let (units, rest) ← readUnits t
    pure (unit :: units, rest)
  | c :: t =>
    if c.toNat < 32 ∨ c = '\\' then none
    else do
      let (units, rest) ← readUnits t
      pure (CodePoint.ofChar c :: units, rest)

/-- Joins each high surrogate with a low one that follows it. -/
def pairSurrogates : List CodePoint → List CodePoint
  | [] => []
  | [c] => [c]
  | c :: d :: rest =>
    if 0xD800 ≤ c.val ∧ c.val < 0xDC00 ∧ 0xDC00 ≤ d.val ∧ d.val < 0xE000 then
      Fin.ofNat 0x110000 (0x10000 + (c.val - 0xD800) * 0x400 + (d.val - 0xDC00))
        :: pairSurrogates rest
    else c :: pairSurrogates (d :: rest)

def readString (t : Text) : Option (List CodePoint × Text) :=
  (readUnits t).map fun r => (pairSurrogates r.1, r.2)

def isDigit (c : Char) : Bool :=
  '0' ≤ c && c ≤ '9'

/-- The whole part of a number: a zero, or digits that do not start with one. -/
def readWhole : Text → Option (Text × Text)
  | '0' :: t => some (['0'], t)
  | t =>
    match t.span isDigit with
    | ([], _) => none
    | r => some r

def readFraction : Text → Option (Text × Text)
  | '.' :: t =>
    match t.span isDigit with
    | ([], _) => none
    | r => some r
  | t => some ([], t)

def readExponent (t : Text) : Option (Option Int × Text) :=
  match t with
  | e :: t' =>
    if e = 'e' ∨ e = 'E' then
      let (sign, digits) : Int × Text := match t' with
        | '+' :: u => (1, u)
        | '-' :: u => (-1, u)
        | u => (1, u)
      match digits.span isDigit with
      | ([], _) => none
      | (ds, rest) => some (some (sign * Text.decimalNumber ds), rest)
    else some (none, t)
  | [] => some (none, [])

def readNumber (t : Text) : Option (Json × Text) := do
  let (negative, t) : Bool × Text := match t with
    | '-' :: u => (true, u)
    | u => (false, u)
  let (whole, t) ← readWhole t
  let (fraction, t) ← readFraction t
  let (power, t) ← readExponent t
  if fraction.isEmpty && power.isNone then
    let n : Int := Text.decimalNumber whole
    pure (.int (if negative then -n else n), t)
  else
    let n := Text.decimalNumber (whole ++ fraction)
    pure (.float (Binary64.ofDecimal negative n (power.getD 0 - fraction.length)), t)

mutual

/-- A value and what follows it; `fuel` bounds the nesting and the number of items. -/
def readValue : Nat → Text → Option (Json × Text)
  | 0, _ => none
  | fuel + 1, t =>
    match t with
    | '"' :: u => (readString u).map fun r => (.str r.1, r.2)
    | '[' :: u =>
      match skipSpace u with
      | ']' :: rest => some (.arr [], rest)
      | v => (readItems fuel v).map fun r => (.arr r.1, r.2)
    | '\x7b' :: u =>
      match skipSpace u with
      | '\x7d' :: rest => some (.obj [], rest)
      | v => (readMembers fuel v).map fun r => (.obj r.1, r.2)
    | 'n' :: u => (Text.after? "ull".toList u).map fun r => (.null, r)
    | 't' :: u => (Text.after? "rue".toList u).map fun r => (.bool true, r)
    | 'f' :: u => (Text.after? "alse".toList u).map fun r => (.bool false, r)
    | u => readNumber u

def readItems : Nat → Text → Option (List Json × Text)
  | 0, _ => none
  | fuel + 1, t => do
    let (v, t) ← readValue fuel (skipSpace t)
    match skipSpace t with
    | ',' :: u =>
      let (vs, rest) ← readItems fuel u
      pure (v :: vs, rest)
    | ']' :: rest => pure ([v], rest)
    | _ => none

def readMembers : Nat → Text → Option (List (List CodePoint × Json) × Text)
  | 0, _ => none
  | fuel + 1, t => do
    match skipSpace t with
    | '"' :: u =>
      let (k, t) ← readString u
      match skipSpace t with
      | ':' :: t =>
        let (v, t) ← readValue fuel (skipSpace t)
        match skipSpace t with
        | ',' :: u =>
          let (ms, rest) ← readMembers fuel u
          pure ((k, v) :: ms, rest)
        | '\x7d' :: rest => pure ([(k, v)], rest)
        | _ => none
      | _ => none
    | _ => none

end

def read? (t : Text) : Option Json := do
  let (v, rest) ← readValue (t.length + 1) (skipSpace t)
  if (skipSpace rest).isEmpty then pure v else none

end SliceIdl.Json
