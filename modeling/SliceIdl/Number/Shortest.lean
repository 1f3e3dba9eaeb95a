import SliceIdl.Number.Binary64

/-!
# The shortest decimal of a number

A finite number is written with the fewest digits that read back as the same number; of the
decimals with that many digits the nearest one is taken, and of two equally near ones the even.
-/

set_option autoImplicit false

namespace SliceIdl.Binary64

/-- A grid of decimals laid over a number. In a common unit, `value` is the number, the decimals
of the grid are the multiples of `step`, and what lies between `low` and `high` rounds to the
number; the ends do so when `closed`. -/
structure Grid where
  value : Nat
  low : Nat
  high : Nat
  step : Nat
  closed : Bool

/-- The grid of the multiples of `10 ^ order`. Below a power of two the numbers lie twice as dense
as above it, so there the lower end is nearer. -/
def grid (x : Binary64) (order : Int) : Grid :=
  let m := x.mantissa
  let e := x.exponent - 2
  let scale := Nat.pow 2 e.toNat * Nat.pow 10 (-order).toNat
  let below := if m = fractionSize ∧ -1074 < x.exponent then 1 else 2
  { value := 4 * m * scale
    low := (4 * m - below) * scale
    high := (4 * m + 2) * scale
    step := Nat.pow 2 (-e).toNat * Nat.pow 10 order.toNat
    closed := m % 2 = 0 }

def Grid.readsBack (g : Grid) (multiple : Nat) : Bool :=
  if g.closed then g.low ≤ multiple * g.step && multiple * g.step ≤ g.high
  else g.low < multiple * g.step && multiple * g.step < g.high

def Grid.nearest? (g : Grid) : Option Nat :=
  let c := g.value / g.step
  match g.readsBack c, g.readsBack (c + 1) with
  | false, false => none
  | true, false => some c
  | false, true => some (c + 1)
  | true, true =>
    let left := g.value - c * g.step
    let right := (c + 1) * g.step - g.value
    some (if left < right then c else if right < left then c + 1 else c + c % 2)

/-- The largest `k` with `10 ^ k` at most the number, for a finite number other than zero. -/
def decimalOrder (x : Binary64) : Int :=
  let scale := Nat.pow 2 x.exponent.toNat * Nat.pow 5 (-x.exponent).toNat
  (Text.ofNat (x.mantissa * scale)).length - 1 - (-x.exponent).toNat

structure Decimal where
  digits : Nat
  exponent : Int
  deriving DecidableEq, Repr

/-- Tries one digit, two digits and so on; seventeen always suffice. -/
def shortest (x : Binary64) : Decimal :=
  let order := x.decimalOrder
  let attempt (count : Nat) : Option Decimal :=
    (x.grid (order - count)).nearest?.map fun c => ⟨c, order - count⟩
  ((List.range 17).findSome? attempt).getD ⟨0, 0⟩

def withoutTrailingZeros (digits : Text) : Text :=
  (digits.reverse.dropWhile (· == '0')).reverse

/-- From `0.0001` up to below `10 ^ 16` a number is written positionally and always with a point;
any other with an exponent of at least two digits. `point` is the number of digits in front of the
point. -/
def layout (digits : Text) (point : Int) : Text :=
  if -4 < point ∧ point ≤ 16 then
    if point ≤ 0 then "0.".toList ++ List.replicate (-point).toNat '0' ++ digits
    else if digits.length ≤ point then
      digits ++ List.replicate (point.toNat - digits.length) '0' ++ ".0".toList
    else digits.take point.toNat ++ '.' :: digits.drop point.toNat
  else
    let power := point - 1
    let shown := Text.ofNat power.natAbs
    digits.take 1 ++ (if digits.length ≤ 1 then [] else '.' :: digits.drop 1)
      ++ 'e' :: (if power < 0 then '-' else '+')
      :: (if shown.length < 2 then '0' :: shown else shown)

def magnitudeText (x : Binary64) : Text :=
  if x.rank = 0 then "0.0".toList
  else
    let d := x.shortest
    let all := Text.ofNat d.digits
    layout (withoutTrailingZeros all) (all.length + d.exponent)

def toText (infinity : Text) (x : Binary64) : Text :=
  (if x.negative then ['-'] else []) ++ (if x.isInfinite then infinity else x.magnitudeText)

end SliceIdl.Binary64
