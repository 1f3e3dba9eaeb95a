import Mathlib.Order.Monotone.Basic
import Mathlib.Tactic.Linarith
import SliceIdl.Proofs.Number.DecimalText

/-!
# Decimals that read back

The numbers of one sign divide the line: each of them is nearest to what lies between the points
half way to its neighbours, and such a point belongs to the number of even rank. The decimal that is
chosen for a number lies where the number is nearest, because seventeen digits are always enough for
that; so decimals of different numbers differ.
-/

set_option autoImplicit false

namespace SliceIdl.Binary64

def mantissaAt (rank : Nat) : Nat :=
  if rank < fractionSize then rank else rank % fractionSize + fractionSize

def exponentAt (rank : Nat) : Int :=
  (max (rank / fractionSize) 1 : Nat) - 1075

def halfway (rank : Nat) : ℚ :=
  (4 * mantissaAt rank + 2) * 2 ^ (exponentAt rank - 2)

/-- How far it is half way down to the number below, in quarters of the unit in the last place. -/
def below (rank : Nat) : Nat :=
  if mantissaAt rank = fractionSize ∧ -1074 < exponentAt rank then 1 else 2

theorem fractionSize_eq : fractionSize = 4503599627370496 := rfl

theorem below_le (rank : Nat) : below rank ≤ 2 := by
  rw [below]
  split <;> decide

theorem mantissaAt_cases (rank : Nat) : rank < fractionSize ∧ mantissaAt rank = rank ∨
    fractionSize ≤ rank ∧ mantissaAt rank = rank % fractionSize + fractionSize := by
  rw [mantissaAt]
  split
  · next h => exact .inl ⟨h, rfl⟩
  · next h => exact .inr ⟨Nat.not_lt.1 h, rfl⟩

theorem mantissaAt_pos {rank : Nat} (h : 0 < rank) : 0 < mantissaAt rank := by
  rw [mantissaAt]
  split
  · exact h
  · exact Nat.add_pos_right _ (by decide)

theorem mantissaAt_mod_two (rank : Nat) : mantissaAt rank % 2 = rank % 2 := by
  rw [mantissaAt, fractionSize_eq]
  split <;> omega

theorem at_succ (rank : Nat) :
    (exponentAt (rank + 1) = exponentAt rank ∧ mantissaAt (rank + 1) = mantissaAt rank + 1 ∧
      below (rank + 1) = 2) ∨
    (exponentAt (rank + 1) = exponentAt rank + 1 ∧ mantissaAt (rank + 1) = fractionSize ∧
      mantissaAt rank + 1 = 2 * fractionSize ∧ below (rank + 1) = 1) := by
  have hm := mantissaAt_cases rank
  have hm' := mantissaAt_cases (rank + 1)
  rw [fractionSize_eq] at hm hm'
  rw [below, exponentAt, exponentAt, fractionSize_eq]
  split <;> omega

theorem halfway_succ (rank : Nat) :
    (4 * mantissaAt (rank + 1) - below (rank + 1) : ℚ) * 2 ^ (exponentAt (rank + 1) - 2) =
      halfway rank := by
  rw [halfway]
  obtain ⟨he, hm, hb⟩ | ⟨he, hm, hm', hb⟩ := at_succ rank
  · rw [he, hm, hb]
    push_cast
    ring
  · have hscale : (2 : ℚ) ^ (exponentAt rank + 1 - 2) = 2 ^ (exponentAt rank - 2) * 2 := by
      rw [← zpow_add_one₀ (by norm_num)]
      congr 1
      ring
    have hmantissa : (mantissaAt rank : ℚ) = 2 * fractionSize - 1 := by
      have hcast : ((mantissaAt rank + 1 : ℕ) : ℚ) = (2 * fractionSize : ℕ) := congrArg _ hm'
      push_cast at hcast
      linarith
    rw [he, hscale, hm, hb, hmantissa]
    push_cast
    ring

theorem halfway_lt_succ (rank : Nat) : halfway rank < halfway (rank + 1) := by
  rw [← halfway_succ, halfway]
  have hpos : (0 : ℚ) < 2 ^ (exponentAt (rank + 1) - 2) := by positivity
  have hb : (0 : ℚ) ≤ below (rank + 1) := by positivity
  nlinarith

theorem halfway_strictMono : StrictMono halfway :=
  strictMono_nat_of_lt_succ halfway_lt_succ

/-- The values that a number of the rank is nearest to, an end between it and a neighbour included
if the rank is even; of zero, what is not below it. -/
structure Nearest (rank : Nat) (q : ℚ) : Prop where
  le : q ≤ halfway rank
  lt : rank % 2 = 1 → q < halfway rank
  ge : ∀ r, rank = r + 1 → halfway r ≤ q ∧ (rank % 2 = 1 → halfway r < q)

theorem Nearest.lt_of_lt {r r' : Nat} {q : ℚ} (h : Nearest r q) (h' : Nearest r' q) : ¬ r < r' := by
  intro hlt
  obtain ⟨k, rfl⟩ := Nat.exists_eq_add_of_lt hlt
  obtain ⟨hge, hgt⟩ := h'.ge (r + k) rfl
  -- Between the two lies one end at most, which is that of the rank below the greater one.
  have hk : r + k = r := halfway_strictMono.injective
    (le_antisymm (hge.trans h.le) (halfway_strictMono.monotone (Nat.le_add_right r k)))
  rw [hk] at hge hgt
  rcases Nat.mod_two_eq_zero_or_one r with heven | hodd
  · exact absurd h.le (not_le.2 (hgt (by omega)))
  · exact absurd hge (not_le.2 (h.lt hodd))

theorem Nearest.rank_eq {r r' : Nat} {q : ℚ} (h : Nearest r q) (h' : Nearest r' q) : r = r' :=
  Nat.le_antisymm (Nat.not_lt.1 (h'.lt_of_lt h)) (Nat.not_lt.1 (h.lt_of_lt h'))

variable {x : Binary64} {order : ℤ}

theorem mantissa_eq {rank : Nat} (h : x.rank = rank) : x.mantissa = mantissaAt rank :=
  congrArg mantissaAt h

theorem exponent_eq {rank : Nat} (h : x.rank = rank) : x.exponent = exponentAt rank :=
  congrArg exponentAt h

theorem grid_unit {r : Nat} (h : x.rank = r + 1) (order : ℤ) : ∃ unit : ℚ, 0 < unit ∧
    (x.grid order).step = 10 ^ order * unit ∧
    (x.grid order).value = x.mantissa * 2 ^ x.exponent * unit ∧
    (x.grid order).low = halfway r * unit ∧ (x.grid order).high = halfway (r + 1) * unit := by
  have hten := zpow_mul_toNat (a := 10) (by norm_num) order
  have htwo := zpow_mul_toNat (a := 2) (by norm_num) (x.exponent - 2)
  have hm := mantissa_eq h
  have he := exponent_eq h
  have hle : below (r + 1) ≤ 4 * mantissaAt (r + 1) := by
    have hpos : 0 < mantissaAt (r + 1) := mantissaAt_pos r.succ_pos
    have hbelow := below_le (r + 1)
    omega
  have hlow : (x.grid order).low = (4 * mantissaAt (r + 1) - below (r + 1)) *
      (2 ^ (x.exponent - 2).toNat * 10 ^ (-order).toNat) := by
    rw [grid, below, ← hm, ← he]
    rfl
  refine ⟨2 ^ (-(x.exponent - 2)).toNat * 10 ^ (-order).toNat, by positivity, ?_, ?_, ?_, ?_⟩
  · have hstep : (x.grid order).step = 2 ^ (-(x.exponent - 2)).toNat * 10 ^ order.toNat := rfl
    rw [hstep]
    push_cast
    rw [← hten]
    ring
  · have hvalue : (x.grid order).value =
        4 * x.mantissa * (2 ^ (x.exponent - 2).toNat * 10 ^ (-order).toNat) := rfl
    rw [hvalue, two_zpow_eq]
    push_cast
    rw [← htwo]
    ring
  · rw [hlow, ← halfway_succ, ← he]
    push_cast [Nat.cast_sub hle]
    rw [← htwo]
    ring
  · have hhigh : (x.grid order).high =
        (4 * x.mantissa + 2) * (2 ^ (x.exponent - 2).toNat * 10 ^ (-order).toNat) := rfl
    rw [hhigh, halfway, ← he, hm]
    push_cast
    rw [← htwo]
    ring

theorem order_of_unit {unit p q : ℚ} (hunit : 0 < unit) {a b : Nat} (ha : a = p * unit)
    (hb : b = q * unit) : (a ≤ b ↔ p ≤ q) ∧ (a < b ↔ p < q) := by
  have hle : (a : ℚ) ≤ b ↔ p ≤ q := by rw [ha, hb, mul_le_mul_iff_left₀ hunit]
  have hlt : (a : ℚ) < b ↔ p < q := by rw [ha, hb, mul_lt_mul_iff_left₀ hunit]
  exact ⟨Nat.cast_le.symm.trans hle, Nat.cast_lt.symm.trans hlt⟩

/-- A multiple on a grid that reads back lies where the number is nearest. -/
theorem nearest_of_readsBack {r c : Nat} (h : x.rank = r + 1)
    (hc : (x.grid order).readsBack c = true) : Nearest (r + 1) (c * 10 ^ order) := by
  obtain ⟨unit, hunit, hstep, -, hlow, hhigh⟩ := grid_unit h order
  have hmultiple : ((c * (x.grid order).step : ℕ) : ℚ) = c * 10 ^ order * unit := by
    rw [Nat.cast_mul, hstep]
    ring
  obtain ⟨hle, hlt⟩ := order_of_unit hunit hmultiple hhigh
  obtain ⟨hge, hgt⟩ := order_of_unit hunit hlow hmultiple
  rw [Grid.readsBack] at hc
  split at hc
  · next hclosed =>
    rw [Bool.and_eq_true, decide_eq_true_iff, decide_eq_true_iff] at hc
    have heven : (r + 1) % 2 ≠ 1 := by
      have hm : x.mantissa % 2 = (r + 1) % 2 := h ▸ mantissaAt_mod_two x.rank
      have hzero : x.mantissa % 2 = 0 := of_decide_eq_true hclosed
      omega
    refine ⟨hle.1 hc.2, fun hodd => absurd hodd heven, fun r' hr => ?_⟩
    obtain rfl := Nat.succ.inj hr
    exact ⟨hge.1 hc.1, fun hodd => absurd hodd heven⟩
  · rw [Bool.and_eq_true, decide_eq_true_iff, decide_eq_true_iff] at hc
    refine ⟨(hlt.1 hc.2).le, fun _ => hlt.1 hc.2, fun r' hr => ?_⟩
    obtain rfl := Nat.succ.inj hr
    exact ⟨(hgt.1 hc.1).le, fun _ => hgt.1 hc.1⟩

theorem Grid.readsBack_of_nearest? {g : Grid} {c : Nat} (h : g.nearest? = some c) :
    g.readsBack c = true := by
  rw [nearest?] at h
  dsimp only at h
  split at h
  · cases h
  · next hleft _ =>
    cases h
    exact hleft
  · next _ hright =>
    cases h
    exact hright
  · next hleft hright =>
    rw [Option.some.injEq] at h
    have hcase : c = g.value / g.step ∨ c = g.value / g.step + 1 := by
      split at h
      · exact .inl h.symm
      split at h
      · exact .inr h.symm
      · omega
    rcases hcase with rfl | rfl
    · exact hleft
    · exact hright

theorem Grid.readsBack_of_between {g : Grid} {multiple : Nat} (hlow : g.low < multiple * g.step)
    (hhigh : multiple * g.step < g.high) : g.readsBack multiple = true := by
  rw [readsBack]
  split
  · simp [hlow.le, hhigh.le]
  · simp [hlow, hhigh]

theorem Grid.width_le_step {g : Grid} (hs : 0 < g.step) (hlow : g.low < g.value)
    (hhigh : g.value < g.high) (h : g.nearest? = none) : g.high ≤ g.low + g.step := by
  have hdiv : g.value / g.step * g.step ≤ g.value := Nat.div_mul_le_self ..
  have hnext : g.value < (g.value / g.step + 1) * g.step := by
    rw [Nat.succ_mul]
    exact Nat.lt_div_mul_add hs
  have hnone : g.readsBack (g.value / g.step) = false ∧
      g.readsBack (g.value / g.step + 1) = false := by
    rw [nearest?] at h
    dsimp only at h
    split at h
    · next hleft hright => exact ⟨hleft, hright⟩
    · cases h
    · cases h
    · cases h
  have hleft : g.value / g.step * g.step ≤ g.low := by
    by_contra hnot
    have hback := readsBack_of_between (Nat.not_le.1 hnot) (hdiv.trans_lt hhigh)
    exact Bool.false_ne_true (hnone.1.symm.trans hback)
  have hright : g.high ≤ (g.value / g.step + 1) * g.step := by
    by_contra hnot
    have hback := readsBack_of_between (hlow.trans hnext) (Nat.not_le.1 hnot)
    exact Bool.false_ne_true (hnone.2.symm.trans hback)
  rw [Nat.succ_mul] at hright
  omega

theorem halfway_sub (r : Nat) : halfway (r + 1) - halfway r =
    (2 + below (r + 1)) * 2 ^ (exponentAt (r + 1) - 2) := by
  have h := halfway_succ r
  rw [← h, halfway]
  ring

theorem mantissaAt_lt (r : Nat) : 4 * mantissaAt r < (2 + below r) * 10 ^ 16 := by
  -- Sixteen digits are as fine as the numbers, save just below a power of two.
  rw [below]
  split
  · next h =>
    rw [h.1, fractionSize_eq]
    decide
  · have hm := mantissaAt_cases r
    rw [fractionSize_eq] at hm
    omega

theorem zpow_order_lt {r : Nat} (h : x.rank = r + 1) :
    (10 : ℚ) ^ (x.decimalOrder - 16) < halfway (r + 1) - halfway r := by
  have hm := mantissa_eq h
  have he := exponent_eq h
  have hdigits : (4 * x.mantissa : ℚ) < (2 + below (r + 1)) * 10 ^ 16 := by
    rw [hm]
    exact_mod_cast mantissaAt_lt (r + 1)
  have hsixteen : (10 : ℚ) ^ (x.decimalOrder - 16) = 10 ^ x.decimalOrder / 10 ^ 16 := by
    rw [zpow_sub₀ (by norm_num)]
    norm_num
  rw [hsixteen, div_lt_iff₀ (by norm_num), halfway_sub, ← he]
  calc (10 : ℚ) ^ x.decimalOrder
      ≤ x.mantissa * 2 ^ x.exponent := zpow_decimalOrder_le (by omega)
    _ = 4 * x.mantissa * 2 ^ (x.exponent - 2) := by
      rw [two_zpow_eq]
      ring
    _ < (2 + below (r + 1)) * 10 ^ 16 * 2 ^ (x.exponent - 2) :=
      mul_lt_mul_of_pos_right hdigits (by positivity)
    _ = (2 + below (r + 1)) * 2 ^ (x.exponent - 2) * 10 ^ 16 := by ring

theorem value_between {r : Nat} (h : x.rank = r + 1) :
    halfway r < x.mantissa * 2 ^ x.exponent ∧ x.mantissa * 2 ^ x.exponent < halfway (r + 1) := by
  have hm := mantissa_eq h
  have he := exponent_eq h
  have hunit : (0 : ℚ) < 2 ^ (x.exponent - 2) := by positivity
  have hbelow : (1 : ℚ) ≤ below (r + 1) := by
    rw [below]
    split <;> norm_num
  have hdown := halfway_succ r
  rw [← hdown, halfway, two_zpow_eq x.exponent, hm, ← he]
  constructor <;> nlinarith

theorem isSome_nearest? {r : Nat} (h : x.rank = r + 1) :
    (x.grid (x.decimalOrder - 16)).nearest?.isSome := by
  rw [Option.isSome_iff_ne_none]
  intro hnone
  obtain ⟨unit, hunit, hstep, hvalue, hlow, hhigh⟩ := grid_unit h (x.decimalOrder - 16)
  obtain ⟨hdown, hup⟩ := value_between h
  have hpos : 0 < (x.grid (x.decimalOrder - 16)).step :=
    Nat.mul_pos (Nat.pow_pos (by decide)) (Nat.pow_pos (by decide))
  have hwide := Grid.width_le_step hpos ((order_of_unit hunit hlow hvalue).2.2 hdown)
    ((order_of_unit hunit hvalue hhigh).2.2 hup) hnone
  have hsum : (((x.grid (x.decimalOrder - 16)).low +
      (x.grid (x.decimalOrder - 16)).step : ℕ) : ℚ) =
        (halfway r + 10 ^ (x.decimalOrder - 16)) * unit := by
    rw [Nat.cast_add, hlow, hstep]
    ring
  have hle := (order_of_unit hunit hhigh hsum).1.1 hwide
  have hlt := zpow_order_lt h
  linarith

/-- The decimal that is chosen for a number other than zero lies where the number is nearest. -/
theorem nearest_shortest {r : Nat} (h : x.rank = r + 1) :
    Nearest (r + 1) (x.shortest.digits * 10 ^ x.shortest.exponent) := by
  rw [shortest]
  cases hf : (List.range 17).findSome? fun count : Nat =>
      (x.grid (x.decimalOrder - count)).nearest?.map fun c =>
        (⟨c, x.decimalOrder - count⟩ : Decimal) with
  | none =>
    have hlast : (x.grid (x.decimalOrder - 16)).nearest? = none :=
      Option.map_eq_none_iff.1 (List.findSome?_eq_none_iff.1 hf 16 (by decide))
    exact absurd hlast (Option.isSome_iff_ne_none.1 (isSome_nearest? h))
  | some d =>
    obtain ⟨count, -, hd⟩ := List.exists_of_findSome?_eq_some hf
    obtain ⟨c, hc, rfl⟩ := Option.map_eq_some_iff.1 hd
    exact nearest_of_readsBack h (Grid.readsBack_of_nearest? hc)

theorem shortest_digits_pos {r : Nat} (h : x.rank = r + 1) : 0 < x.shortest.digits := by
  have hpos : 0 < halfway r := by
    rw [halfway]
    positivity
  obtain ⟨hge, -⟩ := (nearest_shortest h).ge r rfl
  rw [Nat.pos_iff_ne_zero]
  intro hzero
  rw [hzero, Nat.cast_zero, zero_mul] at hge
  linarith

end SliceIdl.Binary64
