import SliceIdl.Proofs.Number.ReadingBack
import SliceIdl.Proofs.Source.Patterns

/-!
# The values of decimal texts

The text of a finite number spells the decimal that is chosen for it, wherever the point stands and
with or without an exponent. The number is nearest to that decimal, so no other number has its text;
nor has a whole number, which is written without a point.
-/

set_option autoImplicit false

namespace SliceIdl
open SliceIdl.Json

namespace Text

variable {digits whole fraction power : Text}

def digitsNumber (digits : Text) : Nat :=
  Nat.ofDigitChars 10 digits 0

theorem digitsNumber_ofNat (n : Nat) : digitsNumber (ofNat n) = n := by
  rw [digitsNumber, ofNat_eq, Nat.ofDigitChars_ten_toDigits]

theorem ofNat_injective {m n : Nat} (h : ofNat m = ofNat n) : m = n := by
  rw [← digitsNumber_ofNat m, h, digitsNumber_ofNat]

theorem digitsNumber_append_zeros (digits : Text) (n : Nat) :
    digitsNumber (digits ++ List.replicate n '0') = digitsNumber digits * 10 ^ n := by
  rw [digitsNumber, Nat.ofDigitChars_append, Nat.ofDigitChars_replicate_zero, Nat.mul_comm]
  rfl

theorem digitsNumber_zeros_append (n : Nat) (digits : Text) :
    digitsNumber (List.replicate n '0' ++ digits) = digitsNumber digits := by
  rw [digitsNumber, Nat.ofDigitChars_append, Nat.ofDigitChars_replicate_zero, Nat.mul_zero]
  rfl

def powerNumber : Text → Int
  | _ :: '-' :: digits => -digitsNumber digits
  | _ :: _ :: digits => digitsNumber digits
  | _ => 0

/-- The number that a decimal text without a sign spells. -/
def decimalValue (t : Text) : ℚ :=
  let mantissa := t.takeWhile (· != 'e')
  let fraction := (mantissa.dropWhile (· != '.')).drop 1
  digitsNumber (mantissa.takeWhile (· != '.') ++ fraction) *
    10 ^ (powerNumber (t.dropWhile (· != 'e')) - fraction.length)

theorem decimalValue_parts (hw : IsDigits whole) (hf : IsFraction fraction)
    (hp : HeadNot (· != 'e') power) : decimalValue (whole ++ fraction ++ power) =
      digitsNumber (whole ++ fraction.drop 1) *
        10 ^ (powerNumber power - (fraction.drop 1).length) := by
  have hmantissa : ∀ c ∈ whole ++ fraction, (c != 'e') = true := by
    intro c hc
    rw [bne_iff_ne]
    rintro rfl
    rcases List.mem_append.1 hc with hc | hc
    · exact hw.notMem rfl hc
    · cases hf with
      | none => exact absurd hc List.not_mem_nil
      | point h => exact h.notMem rfl (List.mem_of_ne_of_mem (by decide) hc)
  have hwhole : ∀ c ∈ whole, (c != '.') = true := by
    intro c hc
    rw [bne_iff_ne]
    rintro rfl
    exact hw.notMem rfl hc
  have hpoint : HeadNot (· != '.') fraction := by
    cases hf with
    | none => exact headNot_nil
    | point h => exact headNot_cons.2 (by decide)
  rw [decimalValue]
  simp only [takeWhile_append hmantissa hp, dropWhile_append hmantissa hp,
    takeWhile_append hwhole hpoint, dropWhile_append hwhole hpoint]

theorem decimalValue_point (hw : IsDigits whole) (hf : IsDigits fraction) :
    decimalValue (whole ++ '.' :: fraction) =
      digitsNumber (whole ++ fraction) * 10 ^ (-fraction.length : ℤ) := by
  have h := decimalValue_parts hw (.point hf) headNot_nil
  rwa [List.append_nil, List.drop_one, List.tail_cons, powerNumber, zero_sub] at h
  all_goals simp

end Text

namespace Binary64
open Text

variable {digits : Text}

theorem isDigits_zero : IsDigits ['0'] :=
  ⟨List.cons_ne_nil _ _, List.forall_mem_singleton.2 rfl⟩

theorem powerNumber_layout (n : Int) :
    powerNumber ('e' :: (if n < 0 then '-' else '+') ::
      (if (ofNat n.natAbs).length < 2 then '0' :: ofNat n.natAbs else ofNat n.natAbs)) = n := by
  have hshown : digitsNumber
      (if (ofNat n.natAbs).length < 2 then '0' :: ofNat n.natAbs else ofNat n.natAbs) =
        n.natAbs := by
    split
    · exact (digitsNumber_zeros_append 1 _).trans (digitsNumber_ofNat _)
    · exact digitsNumber_ofNat _
  split
  · rw [powerNumber, hshown]
    omega
  · rw [powerNumber, hshown]
    · omega
    · decide

theorem decimalValue_below_one (hd : IsDigits digits) (zeros : Nat) :
    decimalValue ("0.".toList ++ List.replicate zeros '0' ++ digits) =
      digitsNumber digits * 10 ^ (-zeros - digits.length : ℤ) := by
  have htext : "0.".toList ++ List.replicate zeros '0' ++ digits =
      ['0'] ++ '.' :: (List.replicate zeros '0' ++ digits) := by simp
  have hnumber : digitsNumber (['0'] ++ (List.replicate zeros '0' ++ digits)) =
      digitsNumber digits :=
    (digitsNumber_zeros_append 1 _).trans (digitsNumber_zeros_append _ _)
  rw [htext, decimalValue_point isDigits_zero (isDigits_zeros_append hd _), hnumber,
    List.length_append, List.length_replicate]
  congr 2
  omega

theorem decimalValue_whole (hd : IsDigits digits) (zeros : Nat) :
    decimalValue (digits ++ List.replicate zeros '0' ++ ".0".toList) =
      digitsNumber digits * 10 ^ (zeros : ℤ) := by
  have htext : digits ++ List.replicate zeros '0' ++ ".0".toList =
      digits ++ List.replicate zeros '0' ++ '.' :: ['0'] := by simp
  have hnumber : digitsNumber (digits ++ List.replicate zeros '0' ++ ['0']) =
      digitsNumber digits * 10 ^ zeros * 10 ^ 1 := by
    rw [← digitsNumber_append_zeros, ← digitsNumber_append_zeros]
    rfl
  rw [htext, decimalValue_point (isDigits_append_zeros hd _) isDigits_zero, hnumber]
  push_cast
  rw [mul_assoc, List.length_singleton, zpow_natCast]
  norm_num

theorem decimalValue_split (hd : IsDigits digits) {n : Nat} (hpos : 0 < n)
    (hlt : n < digits.length) : decimalValue (digits.take n ++ '.' :: digits.drop n) =
      digitsNumber digits * 10 ^ (n - digits.length : ℤ) := by
  rw [decimalValue_point (isDigits_take hd hpos) (isDigits_drop hd hlt), List.take_append_drop,
    List.length_drop]
  congr 2
  omega

theorem decimalValue_scientific (hd : IsDigits digits) {power : Text}
    (hp : HeadNot (· != 'e') power) :
    decimalValue (digits.take 1 ++ (if digits.length ≤ 1 then [] else '.' :: digits.drop 1)
      ++ power) = digitsNumber digits * 10 ^ (powerNumber power + 1 - digits.length) := by
  have hlength : 0 < digits.length := List.length_pos_of_ne_nil hd.1
  have hfraction : IsFraction (if digits.length ≤ 1 then [] else '.' :: digits.drop 1) := by
    split
    · exact .none
    · exact .point (isDigits_drop hd (by omega))
  have hdropped : (if digits.length ≤ 1 then [] else '.' :: digits.drop 1).drop 1 =
      digits.drop 1 := by
    split
    · exact (List.drop_eq_nil_of_le ‹_›).symm
    · rfl
  rw [decimalValue_parts (isDigits_take hd one_pos) hfraction hp, hdropped,
    List.take_append_drop, List.length_drop]
  congr 2
  omega

theorem decimalValue_layout (hd : IsDigits digits) (point : Int) :
    decimalValue (layout digits point) =
      digitsNumber digits * 10 ^ (point - digits.length) := by
  rw [layout]
  split
  · split
    · rw [decimalValue_below_one hd]
      congr 3
      omega
    split
    · rw [decimalValue_whole hd]
      congr 2
      omega
    · rw [decimalValue_split hd (by omega) (by omega)]
      congr 3
      omega
  · dsimp only
    rw [decimalValue_scientific hd (headNot_cons.2 (by decide)), powerNumber_layout]
    congr 3
    omega

theorem digitsNumber_trimmed (digits : Text) :
    (digitsNumber (withoutTrailingZeros digits) : ℚ) *
        10 ^ (digits.length - (withoutTrailingZeros digits).length : ℤ) = digitsNumber digits := by
  have hzeros : digits.rtakeWhile (· == '0') =
      List.replicate (digits.rtakeWhile (· == '0')).length '0' :=
    List.eq_replicate_of_mem fun c hc => eq_of_beq (List.mem_rtakeWhile_imp (p := (· == '0')) hc)
  have hdigits : withoutTrailingZeros digits ++
      List.replicate (digits.rtakeWhile (· == '0')).length '0' = digits := by
    rw [← hzeros, withoutTrailingZeros_eq, List.rdropWhile_append_rtakeWhile]
  have hlength : (digits.length - (withoutTrailingZeros digits).length : ℤ) =
      (digits.rtakeWhile (· == '0')).length := by
    have h := congrArg List.length hdigits
    rw [List.length_append, List.length_replicate] at h
    omega
  have hnumber := digitsNumber_append_zeros (withoutTrailingZeros digits)
    (digits.rtakeWhile (· == '0')).length
  rw [hdigits] at hnumber
  rw [hlength, zpow_natCast, hnumber]
  push_cast
  rfl

theorem nearest_zero : Nearest 0 0 where
  le := by
    rw [halfway]
    positivity
  lt h := by cases h
  ge r h := by cases h

/-- A number is nearest to what its text spells. -/
theorem nearest_magnitudeText (x : Binary64) : Nearest x.rank (decimalValue x.magnitudeText) := by
  rw [magnitudeText]
  split
  · next h =>
    have hvalue : decimalValue "0.0".toList = 0 :=
      (decimalValue_point isDigits_zero isDigits_zero).trans <| by
        rw [show digitsNumber (['0'] ++ ['0']) = 0 from rfl, Nat.cast_zero, zero_mul]
    rw [h, hvalue]
    exact nearest_zero
  · next h =>
    obtain ⟨r, hr⟩ := Nat.exists_eq_succ_of_ne_zero h
    obtain ⟨hd, -⟩ := withoutTrailingZeros_isDigits (ofNat_isDigits x.shortest.digits)
      (head?_ofNat (shortest_digits_pos hr))
    have hsplit (a b e : ℤ) : (10 : ℚ) ^ (a + e - b) = 10 ^ (a - b) * 10 ^ e := by
      rw [← zpow_add₀ (by norm_num)]
      congr 1
      ring
    dsimp only
    rw [decimalValue_layout hd, hsplit, ← mul_assoc, digitsNumber_trimmed, digitsNumber_ofNat, hr]
    exact nearest_shortest hr

theorem magnitudeText_injective {x y : Binary64} (h : x.magnitudeText = y.magnitudeText) :
    x.rank = y.rank :=
  (h ▸ nearest_magnitudeText x).rank_eq (nearest_magnitudeText y)

def unsignedText (infinity : Text) (x : Binary64) : Text :=
  if x.isInfinite then infinity else x.magnitudeText

theorem toText_eq (infinity : Text) (x : Binary64) :
    x.toText infinity = (if x.negative then ['-'] else []) ++ x.unsignedText infinity := rfl

variable {c : Char} {word : Text}

theorem exists_magnitudeText (x : Binary64) :
    ∃ c t, x.magnitudeText = c :: t ∧ c.isDigit = true := by
  obtain ⟨whole, fraction, exponent, hw, -, -, ht⟩ := magnitudeText_isMagnitude x
  have hd : IsDigits whole := by
    cases hw with
    | zero => exact isDigits_zero
    | positive h => exact h
  obtain ⟨c, rest, rfl⟩ := List.exists_cons_of_ne_nil hd.1
  exact ⟨c, rest ++ fraction ++ exponent, by simp [ht], hd.2 c List.mem_cons_self⟩

theorem head?_unsignedText (hm : c ≠ '-') (x : Binary64) :
    (x.unsignedText (c :: word)).head? ≠ some '-' := by
  rw [unsignedText]
  split
  · simpa using hm
  · obtain ⟨d, t, ht, hd⟩ := exists_magnitudeText x
    rw [ht]
    rintro ⟨⟩
    cases hd

theorem unsignedText_injective (hd : c.isDigit = false) {x y : Binary64}
    (h : x.unsignedText (c :: word) = y.unsignedText (c :: word)) : x.rank = y.rank := by
  have hword (x : Binary64) : c :: word ≠ x.magnitudeText := by
    obtain ⟨d, t, ht, hdigit⟩ := exists_magnitudeText x
    rw [ht]
    rintro ⟨⟩
    exact Bool.false_ne_true (hd.symm.trans hdigit)
  rw [unsignedText, unsignedText] at h
  split at h <;> split at h
  · next hx hy => exact (eq_of_beq hx).trans (eq_of_beq hy).symm
  · exact absurd h (hword y)
  · exact absurd h.symm (hword x)
  · exact magnitudeText_injective h

theorem toText_injective (hd : c.isDigit = false) (hm : c ≠ '-') {x y : Binary64}
    (h : x.toText (c :: word) = y.toText (c :: word)) : x = y := by
  rw [toText_eq, toText_eq] at h
  have hx : (x.unsignedText (c :: word)).head? ≠ some '-' := head?_unsignedText hm x
  have hy : (y.unsignedText (c :: word)).head? ≠ some '-' := head?_unsignedText hm y
  have hrank (h : x.unsignedText (c :: word) = y.unsignedText (c :: word)) : x.rank = y.rank :=
    unsignedText_injective hd h
  obtain ⟨negative, rank, hle⟩ := x
  obtain ⟨negative', rank', hle'⟩ := y
  cases negative <;> cases negative'
  · obtain rfl : rank = rank' := hrank h
    rfl
  · rw [if_neg Bool.false_ne_true, if_pos rfl, List.nil_append] at h
    rw [h] at hx
    exact absurd rfl hx
  · rw [if_neg Bool.false_ne_true, if_pos rfl, List.nil_append] at h
    rw [← h] at hy
    exact absurd rfl hy
  · obtain rfl : rank = rank' := hrank (List.cons.inj h).2
    rfl

theorem exists_mem_layout (digits : Text) (point : Int) :
    ∃ c ∈ ['.', 'e'], c ∈ layout digits point := by
  rw [layout]
  split
  · refine ⟨'.', by decide, ?_⟩
    split
    · simp
    split <;> simp
  · exact ⟨'e', by decide, by simp⟩

theorem exists_mem_magnitudeText (x : Binary64) : ∃ c ∈ ['.', 'e'], c ∈ x.magnitudeText := by
  rw [magnitudeText]
  split
  · exact ⟨'.', by decide, by simp⟩
  · exact exists_mem_layout _ _

theorem exists_mem_toText (word : Text) (x : Binary64) :
    ∃ c ∈ ['.', 'e', 'I'], c ∈ x.toText ('I' :: word) := by
  suffices h : ∃ c ∈ ['.', 'e', 'I'], c ∈ x.unsignedText ('I' :: word) by
    obtain ⟨c, hc, hmem⟩ := h
    exact ⟨c, hc, List.mem_append_right _ hmem⟩
  rw [unsignedText]
  split
  · exact ⟨'I', by decide, List.mem_cons_self⟩
  · obtain ⟨c, hc, hmem⟩ := exists_mem_magnitudeText x
    exact ⟨c, List.mem_append_left ['I'] hc, hmem⟩

end Binary64

namespace Text

theorem isDigit_of_mem_ofInt {n : Int} {c : Char} (hc : c ∈ ofInt n) (hm : c ≠ '-') :
    c.isDigit = true := by
  cases n with
  | ofNat n => exact (ofNat_isDigits n).2 c hc
  | negSucc n => exact (ofNat_isDigits (n + 1)).2 c (List.mem_of_ne_of_mem hm hc)

theorem ofInt_injective {m n : Int} (h : ofInt m = ofInt n) : m = n := by
  have hminus (n : Nat) (t : Text) : ofNat n ≠ '-' :: t := fun hn =>
    (ofNat_isDigits n).notMem (c := '-') rfl (hn ▸ List.mem_cons_self)
  cases m <;> cases n
  · exact congrArg _ (ofNat_injective h)
  · exact absurd h (hminus _ _)
  · exact absurd h.symm (hminus _ _)
  · have hn := ofNat_injective (List.cons.inj h).2
    rw [Nat.succ_inj.1 hn]

end Text

end SliceIdl
