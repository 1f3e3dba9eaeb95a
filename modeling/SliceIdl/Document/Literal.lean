import SliceIdl.Document.Escape

/-!
# Literals

The values of string, integer and float tokens.
-/

set_option autoImplicit false

namespace SliceIdl.Literal

def decode? : Text → Option Literal
  | [] => some []
  | c :: t =>
    if c = '\\' then
      match h : escape? t with
      | none => none
      | some (p, r) =>
        have := escape?_length h
        (decode? r).map (p :: ·)
    else (decode? t).map (CodePoint.ofChar c :: ·)
termination_by t => t.length

def inside (token : Text) : Text :=
  (token.drop 1).dropLast

def ofToken? (token : Text) : Option Literal :=
  decode? (inside token)

def unsigned : Text → Bool × Text
  | '-' :: t => (true, t)
  | '+' :: t => (false, t)
  | t => (false, t)

def signed (negative : Bool) (n : Nat) : Int :=
  if negative then -(n : Int) else n

/-- The value of an integer token, or the number of its decimal digits when they are too many. -/
def int (token : Text) : Except Nat Int :=
  let (negative, t) := unsigned token
  match t with
  | '0' :: 'x' :: digits | '0' :: 'X' :: digits => .ok (signed negative (Text.hexNumber digits))
  | digits =>
    if Text.maxDecimalDigits < digits.length then .error digits.length
    else .ok (signed negative (Text.decimalNumber digits))

/-- The value of a float token: its digits, with the point and the power of ten taken as one
exponent. The suffix means nothing. -/
def float (token : Text) : Binary64 :=
  let (negative, t) := unsigned token
  let whole := t.takeWhile Text.isDecimalDigit
  let t := t.dropWhile Text.isDecimalDigit
  let (fraction, t) : Text × Text := match t with
    | '.' :: u => (u.takeWhile Text.isDecimalDigit, u.dropWhile Text.isDecimalDigit)
    | u => ([], u)
  let power : Int := match t with
    | c :: u =>
      if c = 'e' ∨ c = 'E' then
        let (negativePower, digits) := unsigned u
        signed negativePower (Text.decimalNumber (digits.takeWhile Text.isDecimalDigit))
      else 0
    | [] => 0
  Binary64.ofDecimal negative (Text.decimalNumber (whole ++ fraction)) (power - fraction.length)

end SliceIdl.Literal
