import SliceIdl.Text.Numeral

/-!
# Binary64 numbers

A sign and a rank. The rank counts the non-negative binary64 numbers upwards from zero, the last
one being infinity, so two numbers of one sign are equal exactly when their ranks are and the
order of the ranks is the order of the values. Every finite number is `mantissa * 2 ^ exponent`.
A decimal is rounded to the nearest number, and a tie goes to the even mantissa.
-/

set_option autoImplicit false

namespace SliceIdl

def Binary64.infinityRank : Nat := 0x7FF0000000000000

structure Binary64 where
  negative : Bool
  rank : Nat
  rank_le : rank ≤ Binary64.infinityRank
  deriving DecidableEq, Repr

namespace Binary64

def fractionSize : Nat := Nat.pow 2 52

def isInfinite (x : Binary64) : Bool :=
  x.rank == infinityRank

def mantissa (x : Binary64) : Nat :=
  if x.rank < fractionSize then x.rank else x.rank % fractionSize + fractionSize

def exponent (x : Binary64) : Int :=
  (max (x.rank / fractionSize) 1 : Nat) - 1075

def ofRank (negative : Bool) (rank : Nat) : Binary64 :=
  ⟨negative, min rank infinityRank, Nat.min_le_right ..⟩

/-- The quotient `n / d` to the nearest whole number, a half to the even neighbour. -/
def divNearest (n d : Nat) : Nat :=
  let q := n / d
  let r := n % d
  if 2 * r < d then q else if d < 2 * r then q + 1 else q + q % 2

/-- The largest `k` with `2 ^ k ≤ n / d`. -/
def binaryOrder (n d : Nat) : Int :=
  let k : Int := (n.log2 : Int) - (d.log2 : Int)
  if d * Nat.pow 2 k.toNat ≤ n * Nat.pow 2 (-k).toNat then k else k - 1

/-- The number nearest to `n / d`. A mantissa that rounds up to the next power of two gives the
rank of that power, so no carry needs a case of its own. -/
def ofRatio (negative : Bool) (n d : Nat) : Binary64 :=
  if n = 0 then ofRank negative 0
  else
    let e := max (binaryOrder n d - 52) (-1074)
    let m := divNearest (n * Nat.pow 2 (-e).toNat) (d * Nat.pow 2 e.toNat)
    ofRank negative ((e + 1074).toNat * fractionSize + m)

/-- The number nearest to `digits * 10 ^ exponent`. What is beyond every finite number, or below
half the smallest one, is told by its order alone. -/
def ofDecimal (negative : Bool) (digits : Nat) (exponent : Int) : Binary64 :=
  if digits = 0 then ofRank negative 0
  else
    let order := (Text.ofNat digits).length + exponent
    if 310 < order then ofRank negative infinityRank
    else if order < -330 then ofRank negative 0
    else ofRatio negative (digits * Nat.pow 10 exponent.toNat) (Nat.pow 10 (-exponent).toNat)

end Binary64

end SliceIdl
