import Mathlib.Algebra.Order.Field.Power
import Mathlib.Data.List.DropRight
import Mathlib.Data.Rat.Cast.Order
import Mathlib.Tactic.Positivity
import Mathlib.Tactic.Ring
import SliceIdl.Number.Shortest
import SliceIdl.Proofs.Json.Syntax

/-!
# The texts of numbers

A whole number is written without leading zeros. The digits that are chosen for a binary64 number
other than zero start with one that is not zero, because no coarser grid is tried than that of the
number's own order; so every finite number is written as JSON has it.
-/

set_option autoImplicit false

namespace SliceIdl
open SliceIdl.Json

namespace Text

variable {n : Nat}

theorem ofNat_eq (n : Nat) : ofNat n = Nat.toDigits 10 n := by
  rw [ofNat, Nat.repr_eq_ofList_toDigits, String.toList_ofList]

theorem ofNat_isDigits (n : Nat) : IsDigits (ofNat n) := by
  rw [ofNat_eq]
  exact ⟨Nat.toDigits_ne_nil, fun c hc => Nat.isDigit_of_mem_toDigits (by decide) (by decide) hc⟩

theorem head?_ofNat (h : 0 < n) : (ofNat n).head? ≠ some '0' := by
  rw [ofNat_eq]
  induction n using Nat.strong_induction_on with
  | _ n ih =>
    rw [Nat.toDigits_eq_if (by decide)]
    split
    · intro hzero
      rw [List.head?_cons, Option.some.injEq, Nat.digitChar_eq_zero] at hzero
      omega
    · rw [List.head?_append_of_ne_nil _ Nat.toDigits_ne_nil]
      exact ih _ (by omega) (by omega)

theorem ofNat_isWhole (n : Nat) : IsWhole (ofNat n) := by
  rcases Nat.eq_zero_or_pos n with rfl | hn
  · exact .zero
  · exact .positive (ofNat_isDigits n) (head?_ofNat hn)

theorem pow_length_ofNat_le (h : 0 < n) : 10 ^ ((ofNat n).length - 1) ≤ n := by
  rw [ofNat_eq]
  by_cases hl : (Nat.toDigits 10 n).length - 1 = 0
  · rw [hl]
    exact h
  · rw [← not_lt, ← Nat.length_toDigits_le_iff (by decide) (by omega)]
    omega

end Text

theorem zpow_mul_toNat {a : ℚ} (ha : a ≠ 0) (z : ℤ) : a ^ z * a ^ (-z).toNat = a ^ z.toNat := by
  rw [← zpow_natCast, ← zpow_natCast, ← zpow_add₀ ha]
  congr 1
  omega

theorem two_zpow_eq (z : ℤ) : (2 : ℚ) ^ z = 2 ^ (z - 2) * 4 := by
  rw [zpow_sub₀ (by norm_num)]
  norm_num

namespace Binary64

variable {x : Binary64}

theorem mantissa_pos (h : x.rank ≠ 0) : 0 < x.mantissa := by
  rw [mantissa]
  split
  · exact Nat.pos_of_ne_zero h
  · exact Nat.add_pos_right _ (by decide)

theorem zpow_decimalOrder_le (h : x.rank ≠ 0) :
    (10 : ℚ) ^ x.decimalOrder ≤ x.mantissa * 2 ^ x.exponent := by
  have hpos : 0 < x.mantissa * (Nat.pow 2 x.exponent.toNat * Nat.pow 5 (-x.exponent).toNat) :=
    Nat.mul_pos (mantissa_pos h) (Nat.mul_pos (Nat.pow_pos (by decide)) (Nat.pow_pos (by decide)))
  have hle := Text.pow_length_ofNat_le hpos
  -- the order is the number of digits of a multiple by a power of ten, less its zeros and one
  have hlength := List.length_pos_iff.2 (Text.ofNat_isDigits
    (x.mantissa * (Nat.pow 2 x.exponent.toNat * Nat.pow 5 (-x.exponent).toNat))).1
  rw [decimalOrder]
  generalize (Text.ofNat (x.mantissa *
    (Nat.pow 2 x.exponent.toNat * Nat.pow 5 (-x.exponent).toNat))).length = length at hle hlength ⊢
  have hcast : (10 : ℚ) ^ (length - 1) ≤
      x.mantissa * (2 ^ x.exponent.toNat * 5 ^ (-x.exponent).toNat) := by exact_mod_cast hle
  have horder : ((length : ℤ) - 1 - (-x.exponent).toNat) =
      ((length - 1 : ℕ) : ℤ) - ((-x.exponent).toNat : ℤ) := by omega
  rw [horder, zpow_sub₀ (by norm_num), zpow_natCast, zpow_natCast, div_le_iff₀ (by positivity)]
  calc (10 : ℚ) ^ (length - 1)
      ≤ x.mantissa * (2 ^ x.exponent.toNat * 5 ^ (-x.exponent).toNat) := hcast
    _ = x.mantissa * (2 ^ x.exponent * 2 ^ (-x.exponent).toNat * 5 ^ (-x.exponent).toNat) := by
      rw [zpow_mul_toNat (by norm_num)]
    _ = x.mantissa * 2 ^ x.exponent * (2 * 5) ^ (-x.exponent).toNat := by
      rw [mul_pow]
      ring
    _ = x.mantissa * 2 ^ x.exponent * 10 ^ (-x.exponent).toNat := by norm_num

theorem grid_step_le (h : x.rank ≠ 0) {order : ℤ} (ho : order ≤ x.decimalOrder) :
    (x.grid order).step ≤ (x.grid order).value := by
  have hle : (10 : ℚ) ^ order ≤ x.mantissa * 2 ^ x.exponent :=
    (zpow_le_zpow_right₀ (by norm_num) ho).trans (zpow_decimalOrder_le h)
  -- the grid scales a number and its order by whole powers, so that no exponent is negative
  have hcast : (2 : ℚ) ^ (-(x.exponent - 2)).toNat * 10 ^ order.toNat ≤
      4 * x.mantissa * (2 ^ (x.exponent - 2).toNat * 10 ^ (-order).toNat) := by
    calc
      _ = (10 : ℚ) ^ order * (2 ^ (-(x.exponent - 2)).toNat * 10 ^ (-order).toNat) := by
        rw [← zpow_mul_toNat (by norm_num) order]
        ring
      _ ≤ x.mantissa * 2 ^ x.exponent *
          (2 ^ (-(x.exponent - 2)).toNat * 10 ^ (-order).toNat) :=
        mul_le_mul_of_nonneg_right hle (by positivity)
      _ = 4 * x.mantissa *
          (2 ^ (x.exponent - 2) * 2 ^ (-(x.exponent - 2)).toNat * 10 ^ (-order).toNat) := by
        rw [two_zpow_eq]
        ring
      _ = _ := by rw [zpow_mul_toNat (by norm_num)]
  have hnat : 2 ^ (-(x.exponent - 2)).toNat * 10 ^ order.toNat ≤
      4 * x.mantissa * (2 ^ (x.exponent - 2).toNat * 10 ^ (-order).toNat) := by
    exact_mod_cast hcast
  exact hnat

theorem Grid.nearest?_pos {g : Grid} (hs : 0 < g.step) (hle : g.step ≤ g.value) {c : Nat}
    (h : g.nearest? = some c) : 0 < c := by
  have hpos : 0 < g.value / g.step := Nat.div_pos hle hs
  rw [nearest?] at h
  dsimp only at h
  split at h
  · cases h
  · cases h
    exact hpos
  · cases h
    exact Nat.succ_pos _
  · rw [Option.some.injEq] at h
    split at h
    · exact h ▸ hpos
    split at h
    · exact h ▸ Nat.succ_pos _
    · exact h ▸ Nat.add_pos_left hpos _

theorem shortest_digits (h : x.rank ≠ 0) : 0 < x.shortest.digits ∨ x.shortest = ⟨0, 0⟩ := by
  rw [shortest]
  cases hf : (List.range 17).findSome? fun count : Nat =>
      (x.grid (x.decimalOrder - count)).nearest?.map fun c =>
        (⟨c, x.decimalOrder - count⟩ : Decimal) with
  | none => exact .inr rfl
  | some d =>
    left
    obtain ⟨count, -, hd⟩ := List.exists_of_findSome?_eq_some hf
    obtain ⟨c, hc, rfl⟩ := Option.map_eq_some_iff.1 hd
    have hstep : 0 < (x.grid (x.decimalOrder - count)).step :=
      Nat.mul_pos (Nat.pow_pos (by decide)) (Nat.pow_pos (by decide))
    exact Grid.nearest?_pos hstep (grid_step_le h (by omega)) hc

def IsMagnitude (t : Text) : Prop :=
  ∃ whole fraction exponent, IsWhole whole ∧ IsFraction fraction ∧ IsExponent exponent ∧
    t = whole ++ fraction ++ exponent

theorem IsMagnitude.isNumber {minus t : Text} (h : IsMagnitude t) (hm : minus ∈ [[], ['-']]) :
    IsNumber (minus ++ t) := by
  obtain ⟨whole, fraction, exponent, hw, hf, he, rfl⟩ := h
  rw [← List.append_assoc, ← List.append_assoc]
  exact .parts hm hw hf he

theorem withoutTrailingZeros_eq (digits : Text) :
    withoutTrailingZeros digits = digits.rdropWhile (· == '0') := rfl

theorem withoutTrailingZeros_isDigits {digits : Text} (hd : IsDigits digits)
    (hz : digits.head? ≠ some '0') : IsDigits (withoutTrailingZeros digits) ∧
      (withoutTrailingZeros digits).head? ≠ some '0' := by
  rw [withoutTrailingZeros_eq]
  have hkept := List.rdropWhile_prefix (· == '0') (l := digits)
  obtain ⟨first, rest, hfirst⟩ := List.exists_cons_of_ne_nil hd.1
  have hne : digits.rdropWhile (· == '0') ≠ [] := by
    rw [ne_eq, List.rdropWhile_eq_nil_iff]
    intro hall
    have hzero := hall first (by simp [hfirst])
    rw [beq_iff_eq] at hzero
    exact hz (by rw [hfirst, List.head?_cons, hzero])
  refine ⟨⟨hne, fun c hc => hd.2 c (hkept.subset hc)⟩, ?_⟩
  obtain ⟨dropped, hdropped⟩ := hkept
  rwa [← hdropped, List.head?_append_of_ne_nil _ hne] at hz

theorem isDigits_append_zeros {digits : Text} (hd : IsDigits digits) (n : Nat) :
    IsDigits (digits ++ List.replicate n '0') := by
  refine ⟨fun h => hd.1 (List.append_eq_nil_iff.1 h).1, fun c hc => ?_⟩
  rcases List.mem_append.1 hc with hc | hc
  · exact hd.2 c hc
  · rw [(List.mem_replicate.1 hc).2]
    rfl

theorem isDigits_zeros_append {digits : Text} (hd : IsDigits digits) (n : Nat) :
    IsDigits (List.replicate n '0' ++ digits) := by
  refine ⟨fun h => hd.1 (List.append_eq_nil_iff.1 h).2, fun c hc => ?_⟩
  rcases List.mem_append.1 hc with hc | hc
  · rw [(List.mem_replicate.1 hc).2]
    rfl
  · exact hd.2 c hc

theorem isDigits_take {digits : Text} (hd : IsDigits digits) {n : Nat} (hn : 0 < n) :
    IsDigits (digits.take n) :=
  ⟨by simp [List.take_eq_nil_iff, hd.1, Nat.pos_iff_ne_zero.1 hn],
    fun c hc => hd.2 c (List.mem_of_mem_take hc)⟩

theorem isDigits_drop {digits : Text} (hd : IsDigits digits) {n : Nat} (hn : n < digits.length) :
    IsDigits (digits.drop n) :=
  ⟨by simpa [List.drop_eq_nil_iff] using hn, fun c hc => hd.2 c (List.mem_of_mem_drop hc)⟩

theorem head?_take {digits : Text} {n : Nat} (hn : 0 < n) :
    (digits.take n).head? = digits.head? := by
  rw [List.head?_take, if_neg (by omega)]

theorem isFraction_zero : IsFraction ".0".toList :=
  .point ⟨List.cons_ne_nil _ _, List.forall_mem_singleton.2 rfl⟩

theorem isDigits_power (n : Nat) : IsDigits
    (if (Text.ofNat n).length < 2 then '0' :: Text.ofNat n else Text.ofNat n) := by
  split
  · exact isDigits_zeros_append (Text.ofNat_isDigits n) 1
  · exact Text.ofNat_isDigits n

theorem layout_isMagnitude {digits : Text} (hd : IsDigits digits) (hz : digits.head? ≠ some '0')
    (point : Int) : IsMagnitude (layout digits point) := by
  rw [layout]
  split
  · split
    · exact ⟨['0'], '.' :: (List.replicate (-point).toNat '0' ++ digits), [], .zero,
        .point (isDigits_zeros_append hd _), .none, by simp⟩
    split
    · refine ⟨digits ++ List.replicate (point.toNat - digits.length) '0', ".0".toList, [],
        .positive (isDigits_append_zeros hd _) ?_, isFraction_zero, .none, by simp⟩
      rwa [List.head?_append_of_ne_nil _ hd.1]
    · refine ⟨digits.take point.toNat, '.' :: digits.drop point.toNat, [],
        .positive (isDigits_take hd (by omega)) ?_, .point (isDigits_drop hd (by omega)), .none,
        by simp⟩
      rwa [head?_take (by omega)]
  · have hfraction : IsFraction (if digits.length ≤ 1 then [] else '.' :: digits.drop 1) := by
      split
      · exact .none
      · exact .point (isDigits_drop hd (by omega))
    have hsign : [if point - 1 < 0 then '-' else '+'] ∈ [[], ['+'], ['-']] := by
      split <;> decide
    refine ⟨digits.take 1, _, _, .positive (isDigits_take hd (by decide)) ?_, hfraction,
      .power (e := 'e') (by decide) hsign (isDigits_power (point - 1).natAbs), ?_⟩
    · rwa [head?_take (by decide)]
    · simp

theorem magnitudeText_isMagnitude (x : Binary64) : IsMagnitude x.magnitudeText := by
  rw [magnitudeText]
  split
  · exact ⟨['0'], ".0".toList, [], .zero, isFraction_zero, .none, rfl⟩
  · next h =>
    dsimp only
    rcases shortest_digits h with hpos | hnone
    · obtain ⟨hd, hz⟩ := withoutTrailingZeros_isDigits (Text.ofNat_isDigits x.shortest.digits)
        (Text.head?_ofNat hpos)
      exact layout_isMagnitude hd hz _
    · rw [hnone]
      exact ⟨['0'], ".0".toList, [], .zero, isFraction_zero, .none, by decide⟩

end Binary64

theorem isNumber_ofInt (n : Int) : IsNumber (Text.ofInt n) := by
  have hmagnitude (n : Nat) : Binary64.IsMagnitude (Text.ofNat n) :=
    ⟨Text.ofNat n, [], [], Text.ofNat_isWhole n, .none, .none, by simp⟩
  cases n with
  | ofNat n => exact (hmagnitude n).isNumber List.mem_cons_self
  | negSucc n => exact (hmagnitude (n + 1)).isNumber (List.mem_cons_of_mem _ List.mem_cons_self)

/-- A finite number is written as JSON has it, whatever the word for infinity. -/
theorem Binary64.isNumber_toText {x : Binary64} (h : x.isInfinite = false) (infinity : Text) :
    IsNumber (x.toText infinity) := by
  rw [toText, h, if_neg Bool.false_ne_true]
  refine (magnitudeText_isMagnitude x).isNumber ?_
  split <;> decide

end SliceIdl
