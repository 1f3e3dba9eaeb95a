import SliceIdl.Json.Reader
import SliceIdl.Proofs.Json.Printing

/-!
# Strings as code units

A string is printed by its UTF-16 code units: a code point beyond the basic plane looks like the two
surrogates that stand for it. So what is printed tells the code units of a string, and the string
itself unless there is a high surrogate directly before a low one.
-/

set_option autoImplicit false

namespace SliceIdl.Json

def IsHigh (c : CodePoint) : Prop :=
  0xD800 ≤ c.val ∧ c.val < 0xDC00

def IsLow (c : CodePoint) : Prop :=
  0xDC00 ≤ c.val ∧ c.val < 0xE000

instance : DecidablePred IsHigh :=
  fun _ => inferInstanceAs (Decidable (_ ∧ _))

instance : DecidablePred IsLow :=
  fun _ => inferInstanceAs (Decidable (_ ∧ _))

def unit (n : Nat) (h : n < 0x10000) : CodePoint :=
  ⟨n, by omega⟩

/-- The UTF-16 code units of a code point. -/
def units (c : CodePoint) : List CodePoint :=
  if c.val < 0x10000 then [c]
  else [unit (0xD800 + (c.val - 0x10000) / 0x400) (by omega),
    unit (0xDC00 + (c.val - 0x10000) % 0x400) (by omega)]

def codeUnits (s : List CodePoint) : List CodePoint :=
  s.flatMap units

theorem escaped_unit {n : Nat} (h : n < 0x10000) (hn : 127 ≤ n) :
    escaped (unit n h) = escapedUnit n := by
  have hval : (unit n h).val = n := rfl
  simp (disch := omega) only [escaped, hval, if_neg, if_pos]

theorem flatMap_escaped_units (c : CodePoint) : (units c).flatMap escaped = escaped c := by
  rw [units]
  split
  · exact List.flatMap_singleton ..
  · rw [List.flatMap_cons, List.flatMap_singleton, escaped_unit _ (by omega),
      escaped_unit _ (by omega)]
    simp (disch := omega) only [escaped, if_neg]

theorem printString_codeUnits (s : List CodePoint) : printString (codeUnits s) = printString s := by
  rw [printString, codeUnits, List.flatMap_assoc]
  simp only [flatMap_escaped_units]
  rfl

theorem hexUnit?_hexDigits {n : Nat} (h : n < 0x10000) :
    ∃ a b c d, Text.hexDigits 4 n = [a, b, c, d] ∧ hexUnit? a b c d = some (unit n h) := by
  refine ⟨_, _, _, _, rfl, ?_⟩
  have hn : ((n / 16 / 16 / 16 % 16 * 16 + n / 16 / 16 % 16) * 16 + n / 16 % 16) * 16 + n % 16 =
      n := by omega
  have hdigit (k : Nat) : Text.hexValue? (Text.hexDigit (k % 16)) = some (k % 16) :=
    hexValue?_hexDigit _ (Nat.mod_lt _ (by decide))
  simp only [hexUnit?, hdigit, Option.bind_eq_bind, Option.bind_some, hn, CodePoint.ofNat?]
  exact dif_pos (h.trans (by decide))

theorem readUnits_escapedUnit {n : Nat} (h : n < 0x10000) (t : Text) :
    readUnits (escapedUnit n ++ t) = (readUnits t).map fun r => (unit n h :: r.1, r.2) := by
  obtain ⟨a, b, c, d, hdigits, hunit⟩ := hexUnit?_hexDigits h
  rw [escapedUnit, hdigits]
  simp only [List.cons_append, List.nil_append]
  rw [readUnits, hunit]
  cases readUnits t <;> rfl

theorem readUnits_simpleEscape {e : Char} {c : CodePoint} (he : simpleEscape? e = some c)
    (t : Text) : readUnits ('\\' :: e :: t) = (readUnits t).map fun r => (c :: r.1, r.2) := by
  have hu : e ≠ 'u' := by
    rintro rfl
    cases he
  rw [readUnits, he]
  · cases readUnits t <;> rfl
  · rintro a b c d t rfl
    exact absurd rfl hu

theorem readUnits_plain {c : Char} (hc : 32 ≤ c.toNat) (hq : c ≠ '"') (hb : c ≠ '\\') (t : Text) :
    readUnits (c :: t) = (readUnits t).map fun r => (CodePoint.ofChar c :: r.1, r.2) := by
  rw [readUnits, if_neg (by simp [hb, hc])]
  · cases readUnits t <;> rfl
  · exact hq
  · rintro a b c d t rfl
    exact absurd rfl hb
  · rintro e t rfl
    exact absurd rfl hb

theorem readUnits_escaped (c : CodePoint) (t : Text) :
    readUnits (escaped c ++ t) = (readUnits t).map fun r => (units c ++ r.1, r.2) := by
  have hsimple {e : Char} {d : CodePoint} (he : simpleEscape? e = some d) (hd : c.val = d.val)
      (hc : c.val < 0x10000) :
      readUnits (['\\', e] ++ t) = (readUnits t).map fun r => (units c ++ r.1, r.2) := by
    obtain rfl := Fin.ext hd
    rw [units, if_pos hc]
    exact readUnits_simpleEscape he t
  rw [escaped]
  iterate 7
    split
    · exact hsimple rfl ‹_› (by omega)
  split
  · next hquote hbackslash _ _ _ _ _ hprintable =>
    have hval : (Char.ofNat c).toNat = c := toNat_ofNat_ascii c (by omega)
    have hne (d : Char) (hd : c.val ≠ d.toNat) : Char.ofNat c ≠ d := by
      rintro rfl
      exact hd hval.symm
    have hplain := readUnits_plain (by omega) (hne '"' hquote) (hne '\\' hbackslash) t
    rw [show CodePoint.ofChar (Char.ofNat c) = c from Fin.ext hval] at hplain
    rw [units, if_pos (by omega)]
    exact hplain
  split
  · next h =>
    rw [readUnits_escapedUnit h, units, if_pos h]
    rfl
  · next h =>
    rw [List.append_assoc, readUnits_escapedUnit (by omega), readUnits_escapedUnit (by omega),
      Option.map_map, units, if_neg h]
    rfl

theorem readUnits_printString (s : List CodePoint) (t : Text) :
    readUnits (s.flatMap escaped ++ '"' :: t) = some (codeUnits s, t) := by
  induction s with
  | nil => rw [List.flatMap_nil, List.nil_append, readUnits]; rfl
  | cons c s ih =>
    rw [List.flatMap_cons, List.append_assoc, readUnits_escaped, ih]
    rfl

theorem printString_append_inj {s s' : List CodePoint} {t t' : Text}
    (h : printString s ++ t = printString s' ++ t') : codeUnits s = codeUnits s' ∧ t = t' := by
  have hinside : s.flatMap escaped ++ '"' :: t = s'.flatMap escaped ++ '"' :: t' := by
    simpa [printString] using h
  have hread := readUnits_printString s t
  rw [hinside, readUnits_printString, Option.some.injEq, Prod.mk.injEq] at hread
  exact ⟨hread.1.symm, hread.2.symm⟩

/-- No high surrogate stands directly before a low one. -/
def Unsplit (s : List CodePoint) : Prop :=
  s.IsChain fun c d => ¬ (IsHigh c ∧ IsLow d)

instance : DecidablePred Unsplit :=
  fun s => inferInstanceAs (Decidable (s.IsChain fun c d => ¬ (IsHigh c ∧ IsLow d)))

theorem pairSurrogates_cons {c : CodePoint} {s : List CodePoint}
    (h : ∀ d ∈ s.head?, ¬ (IsHigh c ∧ IsLow d)) :
    pairSurrogates (c :: s) = c :: pairSurrogates s := by
  cases s with
  | nil => simp [pairSurrogates]
  | cons d s =>
    rw [pairSurrogates, if_neg]
    have hd := h d rfl
    rw [IsHigh, IsLow] at hd
    omega

theorem pairSurrogates_units {c : CodePoint} (h : ¬ c.val < 0x10000) (s : List CodePoint) :
    pairSurrogates (units c ++ s) = c :: pairSurrogates s := by
  have hc : Fin.ofNat 0x110000 (0x10000 + (0xD800 + (c.val - 0x10000) / 0x400 - 0xD800) * 0x400 +
      (0xDC00 + (c.val - 0x10000) % 0x400 - 0xDC00)) = c := by
    apply Fin.ext
    rw [Fin.ofNat]
    dsimp only
    omega
  rw [units, if_neg h, List.cons_append, List.singleton_append, pairSurrogates,
    if_pos ⟨by simp [unit], by simp [unit]; omega, by simp [unit], by simp [unit]; omega⟩]
  exact congrArg (· :: pairSurrogates s) hc

theorem head?_codeUnits {s : List CodePoint} {d : CodePoint} (hd : d ∈ (codeUnits s).head?)
    (hl : IsLow d) : d ∈ s.head? := by
  cases s with
  | nil => cases hd
  | cons c s =>
    rw [codeUnits, List.flatMap_cons, units] at hd
    split at hd
    · exact hd
    · obtain rfl := Option.some.inj hd
      have hlow := hl.1
      simp only [unit] at hlow
      omega

theorem pairSurrogates_codeUnits {s : List CodePoint} (h : Unsplit s) :
    pairSurrogates (codeUnits s) = s := by
  induction s with
  | nil => rfl
  | cons c s ih =>
    rw [Unsplit, List.isChain_cons] at h
    rw [codeUnits, List.flatMap_cons]
    by_cases hc : c.val < 0x10000
    · have hhead : ∀ d ∈ (codeUnits s).head?, ¬ (IsHigh c ∧ IsLow d) :=
        fun d hd hpair => h.1 d (head?_codeUnits hd hpair.2) hpair
      rw [units, if_pos hc, List.singleton_append]
      exact (pairSurrogates_cons hhead).trans (congrArg _ (ih h.2))
    · rw [pairSurrogates_units hc]
      exact congrArg _ (ih h.2)

mutual

def strings : Json → List (List CodePoint)
  | null | bool _ | int _ | float _ => []
  | str s => [s]
  | arr vs => itemStrings vs
  | obj ms => memberStrings ms

def itemStrings : List Json → List (List CodePoint)
  | [] => []
  | v :: vs => strings v ++ itemStrings vs

def memberStrings : List (List CodePoint × Json) → List (List CodePoint)
  | [] => []
  | (k, v) :: ms => k :: strings v ++ memberStrings ms

end

mutual

def mapStrings (f : List CodePoint → List CodePoint) : Json → Json
  | null => null
  | bool b => bool b
  | int n => int n
  | float x => float x
  | str s => str (f s)
  | arr vs => arr (mapItems f vs)
  | obj ms => obj (mapMembers f ms)

def mapItems (f : List CodePoint → List CodePoint) : List Json → List Json
  | [] => []
  | v :: vs => mapStrings f v :: mapItems f vs

def mapMembers (f : List CodePoint → List CodePoint) :
    List (List CodePoint × Json) → List (List CodePoint × Json)
  | [] => []
  | (k, v) :: ms => (f k, mapStrings f v) :: mapMembers f ms

end

section
variable {f g : List CodePoint → List CodePoint}

mutual

theorem mapStrings_cancel : (v : Json) → (∀ s ∈ v.strings, g (f s) = s) →
    mapStrings g (mapStrings f v) = v
  | null, _ | bool _, _ | int _, _ | float _, _ => rfl
  | str s, h => congrArg str (h s (List.mem_singleton_self s))
  | arr vs, h => congrArg arr (mapItems_cancel vs h)
  | obj ms, h => congrArg obj (mapMembers_cancel ms h)

theorem mapItems_cancel : (vs : List Json) → (∀ s ∈ itemStrings vs, g (f s) = s) →
    mapItems g (mapItems f vs) = vs
  | [], _ => rfl
  | v :: vs, h => by
    rw [itemStrings, List.forall_mem_append] at h
    rw [mapItems, mapItems, mapStrings_cancel v h.1, mapItems_cancel vs h.2]

theorem mapMembers_cancel : (ms : List (List CodePoint × Json)) →
    (∀ s ∈ memberStrings ms, g (f s) = s) → mapMembers g (mapMembers f ms) = ms
  | [], _ => rfl
  | (k, v) :: ms, h => by
    rw [memberStrings, List.forall_mem_append, List.forall_mem_cons] at h
    rw [mapMembers, mapMembers, h.1.1, mapStrings_cancel v h.1.2,
      mapMembers_cancel ms h.2]

end

mutual

theorem print_mapStrings (hf : ∀ s, printString (f s) = printString s) (style : Style)
    (depth : Nat) : (v : Json) → print style depth (mapStrings f v) = print style depth v
  | null | bool _ | int _ | float _ | arr [] | obj [] => rfl
  | str s => by rw [mapStrings, print, print, hf]
  | arr (v :: vs) => by
    rw [mapStrings, mapItems, print, print, print_mapStrings hf, printItems_mapItems hf]
  | obj ((k, v) :: ms) => by
    rw [mapStrings, mapMembers, print, print, hf, print_mapStrings hf, printMembers_mapMembers hf]

theorem printItems_mapItems (hf : ∀ s, printString (f s) = printString s) (style : Style)
    (depth : Nat) : (vs : List Json) →
      printItems style depth (mapItems f vs) = printItems style depth vs
  | [] => rfl
  | v :: vs => by
    rw [mapItems, printItems, printItems, print_mapStrings hf, printItems_mapItems hf]

theorem printMembers_mapMembers (hf : ∀ s, printString (f s) = printString s) (style : Style)
    (depth : Nat) : (ms : List (List CodePoint × Json)) →
      printMembers style depth (mapMembers f ms) = printMembers style depth ms
  | [] => rfl
  | (k, v) :: ms => by
    rw [mapMembers, printMembers, printMembers, hf, print_mapStrings hf,
      printMembers_mapMembers hf]

end

end

/-- A value with every string as its code units. -/
def utf16 (v : Json) : Json :=
  mapStrings codeUnits v

theorem print_utf16 (style : Style) (depth : Nat) (v : Json) :
    print style depth v.utf16 = print style depth v :=
  print_mapStrings printString_codeUnits style depth v

theorem utf16_injective {v w : Json} (hv : ∀ s ∈ v.strings, Unsplit s)
    (hw : ∀ s ∈ w.strings, Unsplit s) (h : v.utf16 = w.utf16) : v = w := by
  rw [← mapStrings_cancel v fun s hs => pairSurrogates_codeUnits (hv s hs), ← utf16, h, utf16,
    mapStrings_cancel w fun s hs => pairSurrogates_codeUnits (hw s hs)]

end SliceIdl.Json
