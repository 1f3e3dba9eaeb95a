import SliceIdl.Text.DecimalDigit

/-!
# Numerals

Reading and writing whole numbers. Digits are read in any script; they are written in ASCII.
-/

set_option autoImplicit false

namespace SliceIdl.Text

def hexValue? (c : Char) : Option Nat :=
  if '0' ≤ c ∧ c ≤ '9' then some (c.toNat - 48)
  else if 'a' ≤ c ∧ c ≤ 'f' then some (c.toNat - 87)
  else if 'A' ≤ c ∧ c ≤ 'F' then some (c.toNat - 55)
  else none

theorem char_le_iff {c d : Char} : c ≤ d ↔ c.toNat ≤ d.toNat := by
  rw [Char.le_def, UInt32.le_iff_toNat_le]
  rfl

theorem hexValue?_lt {c : Char} {d : Nat} (h : hexValue? c = some d) : d < 16 := by
  simp only [hexValue?, char_le_iff] at h
  split at h
  · next hc =>
    obtain rfl := Option.some.inj h
    have hc : c.toNat ≤ 57 := hc.2
    omega
  split at h
  · next hc =>
    obtain rfl := Option.some.inj h
    have hc : c.toNat ≤ 102 := hc.2
    omega
  split at h
  · next hc =>
    obtain rfl := Option.some.inj h
    have hc : c.toNat ≤ 70 := hc.2
    omega
  · cases h

def isHexDigit (c : Char) : Bool :=
  (hexValue? c).isSome

def isOctalDigit (c : Char) : Bool :=
  '0' ≤ c && c ≤ '7'

/-- The number whose digits in the given base are `digits`, the first the most significant. -/
def ofDigits (base : Nat) (digits : List Nat) : Nat :=
  digits.foldl (fun n d => n * base + d) 0

def hexNumber (t : Text) : Nat :=
  ofDigits 16 (t.filterMap hexValue?)

def decimalNumber (t : Text) : Nat :=
  ofDigits 10 (t.filterMap digitValue?)

def ofNat (n : Nat) : Text :=
  (Nat.repr n).toList

def ofInt : Int → Text
  | .ofNat n => ofNat n
  | .negSucc n => '-' :: ofNat (n + 1)

def maxDecimalDigits : Nat := 4300

def tooLongToWrite (n : Int) : Bool :=
  Nat.pow 10 maxDecimalDigits ≤ n.natAbs

end SliceIdl.Text
