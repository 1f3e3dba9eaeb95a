import SliceIdl.Proofs.Json.Determinacy

/-!
# Reading strings and numbers

What the reader takes as whitespace, as a string and as a number is what the grammar says, and it
takes all of it: a string up to its closing quote, and a number up to a bracket, a comma or
whitespace, where nothing of a number can follow.
-/

set_option autoImplicit false

namespace SliceIdl.Json
open Text (HeadNot headNot_cons headNot_nil)

variable {t u w r rest : Text} {c : Char}

theorem isSpace_iff : isSpace c = true ↔ c ∈ [' ', '\t', '\n', '\r'] := by
  simp [isSpace, or_assoc]

theorem skipSpace_append (hw : IsWhitespace w) (t : Text) : skipSpace (w ++ t) = skipSpace t :=
  List.dropWhile_append_of_pos fun c hc => isSpace_iff.2 (hw c hc)

theorem skipSpace_cons (hc : isSpace c = false) (t : Text) : skipSpace (c :: t) = c :: t := by
  rw [skipSpace, List.dropWhile_cons_of_neg (by simp [hc])]

theorem skipSpace_skipSpace (t : Text) : skipSpace (skipSpace t) = skipSpace t :=
  List.dropWhile_idempotent isSpace t

theorem exists_skipSpace (t : Text) : ∃ w, IsWhitespace w ∧ t = w ++ skipSpace t := by
  refine ⟨t.takeWhile isSpace, fun c hc => ?_, List.takeWhile_append_dropWhile.symm⟩
  exact isSpace_iff.1 (List.mem_takeWhile_imp hc)

theorem isSpace_of_not_isStop (hc : isStop c = false) : isSpace c = false := by
  rw [Bool.eq_false_iff] at hc ⊢
  intro hs
  have hall : ∀ c ∈ [' ', '\t', '\n', '\r'], isStop c = true := by simp [isStop, stops]
  exact hc (hall c (isSpace_iff.1 hs))

theorem isHexDigit_of_hexUnit? {a b c d : Char} {unit : CodePoint}
    (h : hexUnit? a b c d = some unit) : ∀ x ∈ [a, b, c, d], Text.isHexDigit x := by
  simp only [hexUnit?, Option.bind_eq_bind, Option.bind_eq_some_iff] at h
  obtain ⟨_, ha, _, hb, _, hc, _, hd, -⟩ := h
  simp [Text.isHexDigit, ha, hb, hc, hd]

theorem mem_of_simpleEscape? {e : Char} {unit : CodePoint} (h : simpleEscape? e = some unit) :
    e ∈ ['"', '\\', '/', 'b', 'f', 'n', 'r', 't'] := by
  rw [simpleEscape?.eq_def] at h
  split at h <;> first | decide | cases h

theorem readUnits_sound {units : List CodePoint} (h : readUnits t = some (units, rest)) :
    ∃ u, t = u ++ '"' :: rest ∧ IsInside u := by
  fun_induction readUnits t generalizing units with
  | case1 => cases h
  | case2 t =>
    cases h
    exact ⟨[], rfl, .nil⟩
  | case3 a b c d t ih =>
    simp only [Option.bind_eq_bind, Option.bind_eq_some_iff, Option.pure_def, Prod.exists] at h
    obtain ⟨unit, hunit, us, rest', hread, h⟩ := h
    cases h
    obtain ⟨u, rfl, hu⟩ := ih hread
    exact ⟨'\\' :: 'u' :: [a, b, c, d] ++ u, rfl, .unit rfl (isHexDigit_of_hexUnit? hunit) hu⟩
  | case4 e t _ ih =>
    simp only [Option.bind_eq_bind, Option.bind_eq_some_iff, Option.pure_def, Prod.exists] at h
    obtain ⟨unit, hunit, us, rest', hread, h⟩ := h
    cases h
    obtain ⟨u, rfl, hu⟩ := ih hread
    exact ⟨'\\' :: e :: u, rfl, .escape (mem_of_simpleEscape? hunit) hu⟩
  | case5 => cases h
  | case6 c t hquote _ _ hc ih =>
    simp only [Option.bind_eq_bind, Option.bind_eq_some_iff, Option.pure_def, Prod.exists] at h
    obtain ⟨us, rest', hread, h⟩ := h
    cases h
    obtain ⟨u, rfl, hu⟩ := ih hread
    rw [not_or, Nat.not_lt] at hc
    exact ⟨c :: u, rfl, .plain hc.1 hquote hc.2 hu⟩

theorem readString_sound {s : List CodePoint} (h : readString t = some (s, rest)) :
    ∃ u, t = u ++ '"' :: rest ∧ IsInside u := by
  rw [readString, Option.map_eq_some_iff] at h
  obtain ⟨⟨units, rest'⟩, hread, h⟩ := h
  cases h
  exact readUnits_sound hread

theorem hexUnit?_complete {a b c d : Char} (h : ∀ x ∈ [a, b, c, d], Text.isHexDigit x) :
    ∃ unit, hexUnit? a b c d = some unit := by
  have hvalue (x : Char) (hx : x ∈ [a, b, c, d]) : ∃ n < 16, Text.hexValue? x = some n := by
    obtain ⟨n, hn⟩ := Option.isSome_iff_exists.1 (h x hx)
    exact ⟨n, Text.hexValue?_lt hn, hn⟩
  obtain ⟨i, hi, ha⟩ := hvalue a (by simp)
  obtain ⟨j, hj, hb⟩ := hvalue b (by simp)
  obtain ⟨k, hk, hc⟩ := hvalue c (by simp)
  obtain ⟨m, hm, hd⟩ := hvalue d (by simp)
  have hlt : ((i * 16 + j) * 16 + k) * 16 + m < 0x110000 := by omega
  refine ⟨⟨_, hlt⟩, ?_⟩
  simp only [hexUnit?, ha, hb, hc, hd, Option.bind_eq_bind, Option.bind_some, CodePoint.ofNat?]
  exact dif_pos hlt

theorem readUnits_complete (hu : IsInside u) (rest : Text) :
    ∃ units, readUnits (u ++ '"' :: rest) = some (units, rest) := by
  induction hu with
  | nil => exact ⟨[], by rw [List.nil_append, readUnits]⟩
  | @plain c t hc hq hb _ ih =>
    obtain ⟨units, hread⟩ := ih
    exact ⟨CodePoint.ofChar c :: units, by
      rw [List.cons_append, readUnits_plain hc hq hb, hread, Option.map_some]⟩
  | @escape e t he _ ih =>
    obtain ⟨units, hread⟩ := ih
    have hall : ∀ e ∈ ['"', '\\', '/', 'b', 'f', 'n', 'r', 't'], (simpleEscape? e).isSome := by
      simp [simpleEscape?]
    obtain ⟨unit, hunit⟩ := Option.isSome_iff_exists.1 (hall e he)
    exact ⟨unit :: units, by
      rw [List.cons_append, List.cons_append, readUnits_simpleEscape hunit, hread,
        Option.map_some]⟩
  | @unit digits t hl hd _ ih =>
    obtain ⟨units, hread⟩ := ih
    obtain ⟨a, b, c, d, rfl⟩ := List.length_eq_four.1 hl
    obtain ⟨unit, hunit⟩ := hexUnit?_complete hd
    refine ⟨unit :: units, ?_⟩
    simp only [List.cons_append, List.nil_append]
    rw [readUnits, hunit, hread]
    rfl

theorem readString_complete (hu : IsInside u) (rest : Text) :
    ∃ s, readString (u ++ '"' :: rest) = some (s, rest) := by
  obtain ⟨units, hread⟩ := readUnits_complete hu rest
  exact ⟨pairSurrogates units, by rw [readString, hread, Option.map_some]⟩

theorem isDigit_eq (c : Char) : isDigit c = c.isDigit := rfl

theorem span_isDigit (t : Text) : ∃ ds rest, t.span isDigit = (ds, rest) ∧ t = ds ++ rest ∧
    ∀ c ∈ ds, c.isDigit = true := by
  refine ⟨t.takeWhile isDigit, t.dropWhile isDigit, List.span_eq_takeWhile_dropWhile .., ?_, ?_⟩
  · exact List.takeWhile_append_dropWhile.symm
  · exact fun c hc => isDigit_eq c ▸ List.mem_takeWhile_imp hc

theorem span_isDigit_append (ht : ∀ c ∈ t, c.isDigit = true) (hr : HeadNot Char.isDigit r) :
    (t ++ r).span isDigit = (t, r) := by
  rw [List.span_eq_takeWhile_dropWhile]
  exact Prod.ext (Text.takeWhile_append ht hr) (Text.dropWhile_append ht hr)

theorem readWhole_sound {whole : Text} (h : readWhole t = some (whole, rest)) :
    t = whole ++ rest ∧ IsWhole whole := by
  rw [readWhole.eq_def] at h
  split at h
  · cases h
    exact ⟨rfl, .zero⟩
  · next hzero =>
    obtain ⟨ds, rest', hspan, ht, hds⟩ := span_isDigit t
    rw [hspan] at h
    split at h
    · cases h
    · next hne =>
      cases h
      refine ⟨ht, .positive ⟨fun hnil => hne _ (by rw [hnil]), hds⟩ fun hhead => ?_⟩
      obtain ⟨more, rfl⟩ := List.head?_eq_some_iff.1 hhead
      exact hzero _ ht

theorem readWhole_complete {whole : Text} (hw : IsWhole whole) (hr : HeadNot Char.isDigit r) :
    readWhole (whole ++ r) = some (whole, r) := by
  cases hw with
  | zero => rfl
  | positive h hz =>
    obtain ⟨c, t, rfl⟩ := List.exists_cons_of_ne_nil h.1
    have hspan := span_isDigit_append h.2 hr
    rw [List.cons_append] at hspan ⊢
    rw [readWhole, hspan]
    rintro u hu
    exact hz (congrArg some (List.cons.inj hu).1)

theorem readFraction_sound {digits : Text} (h : readFraction t = some (digits, rest)) :
    ∃ fraction, t = fraction ++ rest ∧ IsFraction fraction := by
  rw [readFraction.eq_def] at h
  split at h
  · next t =>
    obtain ⟨ds, rest', hspan, rfl, hds⟩ := span_isDigit t
    rw [hspan] at h
    split at h
    · cases h
    · next hne =>
      cases h
      exact ⟨'.' :: digits, rfl, .point ⟨fun hnil => hne _ (by rw [hnil]), hds⟩⟩
  · cases h
    exact ⟨[], rfl, .none⟩

theorem readFraction_of_headNot (hr : HeadNot (· == '.') r) : readFraction r = some ([], r) := by
  rw [readFraction.eq_def]
  split
  · cases headNot_cons.1 hr
  · rfl

theorem readFraction_complete {fraction : Text} (hf : IsFraction fraction)
    (hd : HeadNot Char.isDigit r) (hr : HeadNot (· == '.') r) :
    ∃ digits, readFraction (fraction ++ r) = some (digits, r) := by
  cases hf with
  | none => exact ⟨[], readFraction_of_headNot hr⟩
  | @point t h =>
    refine ⟨t, ?_⟩
    rw [List.cons_append, readFraction, span_isDigit_append h.2 hd]
    split
    · next hnil => exact absurd (congrArg Prod.fst hnil) h.1
    · rfl

theorem exists_sign {n : Int} {digits : Text} (h : (match t with
    | '+' :: u => (1, u)
    | '-' :: u => (-1, u)
    | u => (1, u)) = (n, digits)) : ∃ sign ∈ [[], ['+'], ['-']], t = sign ++ digits := by
  split at h <;> cases h
  · exact ⟨['+'], by decide, rfl⟩
  · exact ⟨['-'], by decide, rfl⟩
  · exact ⟨[], by decide, rfl⟩

theorem readExponent_sound {power : Option Int} (h : readExponent t = some (power, rest)) :
    ∃ exponent, t = exponent ++ rest ∧ IsExponent exponent := by
  rw [readExponent.eq_def] at h
  split at h
  · next e t =>
    split at h
    · next he =>
      split at h
      next n digits hsign =>
      obtain ⟨sign, hs, rfl⟩ := exists_sign hsign
      obtain ⟨ds, rest', hspan, rfl, hds⟩ := span_isDigit digits
      rw [hspan] at h
      split at h
      · cases h
      · next hne hpair =>
        cases hpair
        cases h
        have hpower : IsExponent (e :: sign ++ ds) :=
          .power (by simpa using he) hs ⟨hne, hds⟩
        exact ⟨_, by rw [List.append_assoc, List.cons_append], hpower⟩
    · cases h
      exact ⟨[], rfl, .none⟩
  · cases h
    exact ⟨[], rfl, .none⟩

theorem readExponent_of_headNot (hr : HeadNot (· ∈ ['e', 'E']) r) :
    readExponent r = some (none, r) := by
  cases r with
  | nil => rfl
  | cons c r =>
    have hc : ¬ (c = 'e' ∨ c = 'E') := by simpa using headNot_cons.1 hr
    rw [readExponent.eq_def]
    exact if_neg hc

theorem readExponent_complete {exponent : Text} (hx : IsExponent exponent)
    (hd : HeadNot Char.isDigit r) (hr : HeadNot (· ∈ ['e', 'E']) r) :
    ∃ power, readExponent (exponent ++ r) = some (power, r) := by
  cases hx with
  | none => exact ⟨none, readExponent_of_headNot hr⟩
  | @power e sign t he hs h =>
    have he' : e = 'e' ∨ e = 'E' := by simpa using he
    obtain ⟨d, ds, rfl⟩ := List.exists_cons_of_ne_nil h.1
    have hspan := span_isDigit_append h.2 hd
    have hplus : d ≠ '+' ∧ d ≠ '-' := by
      have hdigit := h.2 d List.mem_cons_self
      constructor <;> rintro rfl <;> cases hdigit
    rw [List.cons_append] at hspan
    simp only [List.mem_cons, List.not_mem_nil, or_false] at hs
    rcases hs with rfl | rfl | rfl
    · simp [readExponent, he', hspan, hplus, -List.span_eq_takeWhile_dropWhile]
    · simp [readExponent, he', hspan, -List.span_eq_takeWhile_dropWhile]
    · simp [readExponent, he', hspan, -List.span_eq_takeWhile_dropWhile]

theorem readNumber_sound {v : Json} (h : readNumber t = some (v, rest)) :
    ∃ u, t = u ++ rest ∧ IsNumber u := by
  rw [readNumber.eq_def] at h
  split at h
  next negative unsigned hminus =>
  obtain ⟨minus, hm, rfl⟩ : ∃ minus ∈ [[], ['-']], t = minus ++ unsigned := by
    split at hminus <;> cases hminus
    · exact ⟨['-'], by decide, rfl⟩
    · exact ⟨[], by decide, rfl⟩
  simp only [Option.bind_eq_bind, Option.bind_eq_some_iff, Prod.exists] at h
  obtain ⟨whole, t₁, hwhole, digits, t₂, hfraction, power, t₃, hexponent, h⟩ := h
  obtain ⟨rfl, hw⟩ := readWhole_sound hwhole
  obtain ⟨fraction, rfl, hf⟩ := readFraction_sound hfraction
  obtain ⟨exponent, rfl, hx⟩ := readExponent_sound hexponent
  obtain rfl : t₃ = rest := by
    split at h <;> exact congrArg Prod.snd (Option.some.inj h)
  exact ⟨_, by simp only [List.append_assoc], .parts hm hw hf hx⟩

theorem Stopped.headNot (hr : Stopped r) {p : Char → Bool} (hp : stops.any p = false) :
    HeadNot p r := by
  refine Text.HeadNot.mono hr fun c hc => ?_
  rw [Bool.not_eq_true']
  exact decide_eq_false fun hmem => List.any_eq_false.1 hp c hmem hc

theorem IsFraction.headNot {fraction : Text} (hf : IsFraction fraction) {p : Char → Bool}
    (hp : p '.' = false) (hr : HeadNot p r) : HeadNot p (fraction ++ r) := by
  cases hf with
  | none => exact hr
  | point => exact headNot_cons.2 hp

theorem IsExponent.headNot {exponent : Text} (hx : IsExponent exponent) {p : Char → Bool}
    (hp : ['e', 'E'].any p = false) (hr : HeadNot p r) : HeadNot p (exponent ++ r) := by
  cases hx with
  | none => exact hr
  | power he => exact headNot_cons.2 (Bool.eq_false_of_not_eq_true (List.any_eq_false.1 hp _ he))

theorem IsWhole.append_ne_minus {whole : Text} (hw : IsWhole whole) (r u : Text) :
    whole ++ r ≠ '-' :: u := by
  intro h
  cases hw with
  | zero => cases h
  | positive hd =>
    obtain ⟨d, ds, rfl⟩ := List.exists_cons_of_ne_nil hd.1
    have hdigit := hd.2 d List.mem_cons_self
    cases h
    cases hdigit

theorem readNumber_complete (hu : IsNumber u) (hr : Stopped r) :
    ∃ v, readNumber (u ++ r) = some (v, r) := by
  cases hu with
  | @parts minus whole fraction exponent hm hw hf hx =>
    have hdigit : HeadNot Char.isDigit r := hr.headNot (by decide)
    have hpoint : HeadNot (· == '.') r := hr.headNot (by decide)
    obtain ⟨power, hpower⟩ := readExponent_complete hx hdigit (hr.headNot (by decide))
    obtain ⟨digits, hdigits⟩ := readFraction_complete hf (hx.headNot (by decide) hdigit)
      (hx.headNot (by decide) hpoint)
    have hwhole := readWhole_complete hw
      (hf.headNot (by decide) (hx.headNot (by decide) hdigit))
    simp only [List.mem_cons, List.not_mem_nil, or_false] at hm
    simp only [List.append_assoc]
    rcases hm with rfl | rfl
    · rw [List.nil_append, readNumber]
      · simp only [hwhole, hdigits, hpower, Option.bind_eq_bind, Option.bind_some]
        split <;> exact ⟨_, rfl⟩
      · exact hw.append_ne_minus _
    · rw [List.singleton_append, readNumber]
      simp only [hwhole, hdigits, hpower, Option.bind_eq_bind, Option.bind_some]
      split <;> exact ⟨_, rfl⟩

end SliceIdl.Json
