import Mathlib.Data.Bool.AllAny
import SliceIdl.Proofs.Json.Reading

/-!
# What is printed is read back

A value without binary64 numbers is read from its own text, with its items and members in their
order. A string is read back unless a high surrogate stands directly before a low one in it, and the
indented text of a value is plain ASCII on lines.
-/

set_option autoImplicit false

namespace SliceIdl

namespace Text

theorem digitValue?_of_isDigit {c : Char} (hc : c.isDigit = true) :
    digitValue? c = some (c.toNat - '0'.toNat) := by
  have h : 48 ≤ c.toNat ∧ c.toNat ≤ 57 := Char.isDigit_iff_toNat.1 hc
  have hascii : c.toNat < 128 := by omega
  simp only [digitValue?, if_pos hascii, if_pos h]
  rfl

theorem decimalNumber_of_isDigit {t : Text} (ht : ∀ c ∈ t, c.isDigit = true) :
    decimalNumber t = digitsNumber t := by
  suffices h : ∀ n, (t.filterMap digitValue?).foldl (fun n d => n * 10 + d) n =
      Nat.ofDigitChars 10 t n from h 0
  induction t with
  | nil => exact fun _ => rfl
  | cons c t ih =>
    rw [List.forall_mem_cons] at ht
    intro n
    rw [List.filterMap_cons_some (digitValue?_of_isDigit ht.1), List.foldl_cons, ih ht.2,
      Nat.ofDigitChars_cons, Nat.mul_comm]

theorem decimalNumber_ofNat (n : Nat) : decimalNumber (ofNat n) = n := by
  rw [decimalNumber_of_isDigit (ofNat_isDigits n).2, digitsNumber_ofNat]

theorem tooLongToWrite_iff {n : Int} :
    tooLongToWrite n = true ↔ maxDecimalDigits < (ofNat n.natAbs).length := by
  have hpos : 0 < maxDecimalDigits := by decide
  rw [tooLongToWrite, decide_eq_true_iff, ← not_iff_not, not_le, not_lt, ofNat_eq,
    Nat.length_toDigits_le_iff (by decide) hpos, Nat.pow_eq]

end Text

namespace Json
open Text (HeadNot headNot_cons headNot_nil)

mutual

def integers : Json → List Int
  | null | bool _ | float _ | str _ => []
  | int n => [n]
  | arr vs => itemIntegers vs
  | obj ms => memberIntegers ms

def itemIntegers : List Json → List Int
  | [] => []
  | v :: vs => integers v ++ itemIntegers vs

def memberIntegers : List (List CodePoint × Json) → List Int
  | [] => []
  | (_, v) :: ms => integers v ++ memberIntegers ms

end

mutual

theorem hasLongNumber_eq : (v : Json) → v.hasLongNumber = v.integers.any Text.tooLongToWrite
  | null | bool _ | float _ | str _ => rfl
  | int _ => (Bool.or_false _).symm
  | arr vs => anyLongNumber_eq vs
  | obj ms => anyLongMember_eq ms

theorem anyLongNumber_eq : (vs : List Json) →
    anyLongNumber vs = (itemIntegers vs).any Text.tooLongToWrite
  | [] => rfl
  | v :: vs => by
    rw [anyLongNumber, itemIntegers, List.any_append, hasLongNumber_eq v, anyLongNumber_eq vs]

theorem anyLongMember_eq : (ms : List (List CodePoint × Json)) →
    anyLongMember ms = (memberIntegers ms).any Text.tooLongToWrite
  | [] => rfl
  | (k, v) :: ms => by
    rw [anyLongMember, memberIntegers, List.any_append, hasLongNumber_eq v, anyLongMember_eq ms]

end

theorem render?_eq_some_iff {v : Json} {t : Text} : render? v = some t ↔
    (∀ n ∈ v.integers, (Text.ofNat n.natAbs).length ≤ Text.maxDecimalDigits) ∧
      print .indented 0 v = t := by
  have hlong : v.hasLongNumber = true ↔
      ¬ ∀ n ∈ v.integers, (Text.ofNat n.natAbs).length ≤ Text.maxDecimalDigits := by
    rw [hasLongNumber_eq, List.any_eq_true]
    simp only [Text.tooLongToWrite_iff, not_forall, not_le, exists_prop]
  rw [render?_eq]
  split
  · next h => simp [hlong.1 h]
  · next h =>
    rw [hlong, not_not] at h
    rw [Option.some.injEq, and_iff_right h]

variable {style : Style} {t r : Text} {v : Json}

theorem readNumber_ofInt (n : Int) (hr : Stopped r) :
    readNumber (Text.ofInt n ++ r) = some (.int n, r) := by
  have hdigit : HeadNot Char.isDigit r := hr.headNot (by decide)
  have hfraction := readFraction_of_headNot (hr.headNot (p := (· == '.')) (by decide))
  have hexponent := readExponent_of_headNot (hr.headNot (p := (· ∈ ['e', 'E'])) (by decide))
  have hwhole (n : Nat) := readWhole_complete (Text.ofNat_isWhole n) hdigit
  cases n with
  | ofNat n =>
    rw [Text.ofInt, readNumber]
    · simp [hwhole, hfraction, hexponent, Text.decimalNumber_ofNat]
    · exact (Text.ofNat_isWhole n).append_ne_minus r
  | negSucc n =>
    rw [Text.ofInt, List.cons_append, readNumber]
    simp [hwhole, hfraction, hexponent, Text.decimalNumber_ofNat, Int.negSucc_eq]

theorem readString_printString {s : List CodePoint} (hs : Unsplit s) (t : Text) :
    readString (s.flatMap escaped ++ '"' :: t) = some (s, t) := by
  rw [readString, readUnits_printString, Option.map_some, pairSurrogates_codeUnits hs]

theorem skipSpace_print {space : Text} (hspace : IsWhitespace space) (depth : Nat) (v : Json)
    (t : Text) : skipSpace (space ++ (print style depth v ++ t)) = print style depth v ++ t ∧
      ∃ c u, print style depth v ++ t = c :: u ∧ isStop c = false := by
  obtain ⟨c, u, hu, hc, -⟩ := exists_print style depth v
  rw [skipSpace_append hspace, hu, List.cons_append, skipSpace_cons (isSpace_of_not_isStop hc)]
  exact ⟨rfl, c, u ++ t, rfl, hc⟩

theorem skipSpace_printString {space : Text} (hspace : IsWhitespace space) (k : List CodePoint)
    (t : Text) : skipSpace (space ++ (printString k ++ t)) = printString k ++ t := by
  rw [skipSpace_append hspace]
  exact skipSpace_cons rfl _

mutual

/-- A printed value is read with as much fuel as it has characters. -/
theorem readValue_print (hs : style.IsLegal) (depth : Nat) : (v : Json) → v.floats = [] →
    (∀ s ∈ v.strings, Unsplit s) → {n : Nat} → (print style depth v).length ≤ n →
    {r : Text} → Stopped r → readValue n (print style depth v ++ r) = some (v, r)
  | null, _, _, fuel + 1, _, r, _ => by simp [print, readValue, Text.after?]
  | bool true, _, _, fuel + 1, _, r, _ => by simp [print, readValue, Text.after?]
  | bool false, _, _, fuel + 1, _, r, _ => by simp [print, readValue, Text.after?]
  | int n, _, _, fuel, hf, r, hr => by
    have hread := readNumber_ofInt n hr
    obtain ⟨c, t, ht, hc⟩ := (isNumber_ofInt n).exists_head
    rw [print, ht] at hf ⊢
    rw [ht] at hread
    cases fuel with
    | zero => cases hf
    | succ fuel => rwa [List.cons_append, readValue_number hc]
  | str s, _, hstr, fuel + 1, _, r, _ => by
    have hread := readString_printString (hstr s (List.mem_singleton_self s)) r
    simp [print, printString, readValue, hread]
  | arr [], _, _, fuel + 1, _, r, _ => by simp [print, readValue, skipSpace_cons (c := ']') rfl]
  | arr (v :: vs), hfloat, hstr, fuel, hf, r, _ => by
    rw [floats, itemFloats, List.append_eq_nil_iff] at hfloat
    rw [strings, itemStrings, List.forall_mem_append] at hstr
    simp only [print, List.length_append, List.length_cons, List.length_nil] at hf
    -- The brackets pay for the array and for the list of its items.
    obtain ⟨n, rfl⟩ : ∃ n, fuel = n + 2 := ⟨fuel - 2, by omega⟩
    have hclosing := closing_margin hs depth (c := ']') (by decide) r
    have hstop : Stopped (printItems style (depth + 1) vs ++ (style.margin depth ++ ']' :: r)) :=
      stopped_items hs vs hclosing
    have hv := readValue_print hs (depth + 1) v hfloat.1 hstr.1 (n := n) (by omega) hstop
    obtain ⟨hskip, c, u, hu, hc⟩ := skipSpace_print (hs.margin (depth + 1)) (depth + 1) v
      (printItems style (depth + 1) vs ++ (style.margin depth ++ ']' :: r))
    rw [← hskip] at hv
    have hitems := readItems_print hs (depth + 1) vs hfloat.2 hstr.2 (by omega) hclosing
      ((ended_cons (by decide) r).skipSpace_append (hs.margin depth)) hv
    rw [print_arr_append, readValue_array (hskip.trans hu) (ne_of_isStop hc rfl), hitems,
      Option.map_some]
  | obj [], _, _, fuel + 1, _, r, _ => by simp [print, readValue, skipSpace_cons (c := '\x7d') rfl]
  | obj ((k, v) :: ms), hfloat, hstr, fuel, hf, r, _ => by
    rw [floats, memberFloats, List.append_eq_nil_iff] at hfloat
    rw [strings, memberStrings, List.forall_mem_append, List.forall_mem_cons] at hstr
    simp only [print, List.length_append, List.length_cons, List.length_nil] at hf
    obtain ⟨n, rfl⟩ : ∃ n, fuel = n + 2 := ⟨fuel - 2, by omega⟩
    have hclosing := closing_margin hs depth (c := '\x7d') (by decide) r
    have hstop : Stopped (printMembers style (depth + 1) ms ++
        (style.margin depth ++ '\x7d' :: r)) := stopped_members hs ms hclosing
    have hv := readValue_print hs (depth + 1) v hfloat.1 hstr.1.2 (n := n) (by omega) hstop
    rw [← (skipSpace_print isWhitespace_space (depth + 1) v _).1] at hv
    have hname := skipSpace_printString (hs.margin (depth + 1)) k (':' :: ' ' ::
      (print style (depth + 1) v ++
        (printMembers style (depth + 1) ms ++ (style.margin depth ++ '\x7d' :: r))))
    have hmembers := readMembers_print hs (depth + 1) ms hfloat.2 hstr.2 (by omega) hstr.1.1 hname
      hclosing ((ended_cons (by decide) r).skipSpace_append (hs.margin depth)) hv
    rw [print_obj_append, readValue_object (c := '"') hname (by decide), hmembers, Option.map_some]

theorem readItems_print (hs : style.IsLegal) (depth : Nat) : (vs : List Json) →
    itemFloats vs = [] → (∀ s ∈ itemStrings vs, Unsplit s) → {fuel : Nat} →
    (printItems style depth vs).length ≤ fuel → {t r rest : Text} → {v : Json} → Closing r →
    skipSpace r = ']' :: rest →
    readValue fuel (skipSpace t) = some (v, printItems style depth vs ++ r) →
    readItems (fuel + 1) t = some (v :: vs, rest)
  | [], _, _, fuel, _, t, r, rest, v, _, hrest, hv => readItems_last hv hrest
  | u :: us, hfloat, hstr, fuel, hf, t, r, rest, v, hr, hrest, hv => by
    obtain ⟨space, hsep, hspace⟩ := hs.separator depth
    rw [itemFloats, List.append_eq_nil_iff] at hfloat
    rw [itemStrings, List.forall_mem_append] at hstr
    rw [printItems_append, hsep, List.cons_append] at hv
    simp only [printItems, hsep, List.length_append, List.length_cons] at hf
    obtain ⟨n, rfl⟩ : ∃ n, fuel = n + 1 := ⟨fuel - 1, by omega⟩
    have hstop : Stopped (printItems style depth us ++ r) := stopped_items hs us hr
    have hu := readValue_print hs depth u hfloat.1 hstr.1 (n := n) (by omega) hstop
    rw [← (skipSpace_print hspace depth u _).1] at hu
    exact readItems_next hv (skipSpace_cons rfl _)
      (readItems_print hs depth us hfloat.2 hstr.2 (by omega) hr hrest hu)

theorem readMembers_print (hs : style.IsLegal) (depth : Nat) :
    (ms : List (List CodePoint × Json)) → memberFloats ms = [] →
    (∀ s ∈ memberStrings ms, Unsplit s) → {fuel : Nat} →
    (printMembers style depth ms).length ≤ fuel → {t t' r rest : Text} →
    {k : List CodePoint} → {v : Json} → Unsplit k →
    skipSpace t = printString k ++ ':' :: t' → Closing r → skipSpace r = '\x7d' :: rest →
    readValue fuel (skipSpace t') = some (v, printMembers style depth ms ++ r) →
    readMembers (fuel + 1) t = some ((k, v) :: ms, rest)
  | [], _, _, fuel, _, t, t', r, rest, k, v, hk, ht, _, hrest, hv => by
    rw [printString, List.cons_append, List.cons_append, List.append_assoc] at ht
    exact readMembers_last ht (readString_printString hk _) (skipSpace_cons rfl _) hv hrest
  | (k', u) :: ms, hfloat, hstr, fuel, hf, t, t', r, rest, k, v, hk, ht, hr, hrest, hv => by
    obtain ⟨space, hsep, hspace⟩ := hs.separator depth
    rw [memberFloats, List.append_eq_nil_iff] at hfloat
    rw [memberStrings, List.forall_mem_append, List.forall_mem_cons] at hstr
    rw [printMembers_append, hsep, List.cons_append] at hv
    simp only [printMembers, hsep, List.length_append, List.length_cons] at hf
    obtain ⟨n, rfl⟩ : ∃ n, fuel = n + 1 := ⟨fuel - 1, by omega⟩
    have hstop : Stopped (printMembers style depth ms ++ r) := stopped_members hs ms hr
    have hu := readValue_print hs depth u hfloat.1 hstr.1.2 (n := n) (by omega) hstop
    rw [← (skipSpace_print isWhitespace_space depth u _).1] at hu
    have hname := skipSpace_printString hspace k' (':' :: ' ' ::
      (print style depth u ++ (printMembers style depth ms ++ r)))
    rw [printString, List.cons_append, List.cons_append, List.append_assoc] at ht
    exact readMembers_next ht (readString_printString hk _) (skipSpace_cons rfl _) hv
      (skipSpace_cons rfl _)
      (readMembers_print hs depth ms hfloat.2 hstr.2 (by omega) hstr.1.1 hname hr hrest hu)

end

/-- A value without binary64 numbers is read from its own text. -/
theorem read?_print (hs : style.IsLegal) (depth : Nat) (hfloat : v.floats = [])
    (hstr : ∀ s ∈ v.strings, Unsplit s) : read? (print style depth v) = some v := by
  have hv := readValue_print hs depth v hfloat hstr (Nat.le_succ _) headNot_nil
  have hskip : skipSpace ([] ++ (print style depth v ++ [])) = print style depth v ++ [] :=
    (skipSpace_print isWhitespace_nil depth v []).1
  rw [List.append_nil] at hv hskip
  rw [List.nil_append] at hskip
  rw [read?, hskip, hv]
  rfl

/-- A line break, or a printable ASCII character. -/
def IsPlain (c : Char) : Prop :=
  c = '\n' ∨ 32 ≤ c.toNat ∧ c.toNat ≤ 126

instance : DecidablePred IsPlain :=
  fun _ => inferInstanceAs (Decidable (_ ∨ _))

theorem isPlain_of_isDigit {c : Char} (hc : c.isDigit = true) : IsPlain c := by
  have h : 48 ≤ c.toNat ∧ c.toNat ≤ 57 := Char.isDigit_iff_toNat.1 hc
  exact .inr ⟨by omega, by omega⟩

theorem IsNumber.isPlain (ht : IsNumber t) : ∀ c ∈ t, IsPlain c := by
  have hsigns : ∀ c ∈ numberSigns, IsPlain c := by simp [numberSigns, IsPlain]
  intro c hc
  cases hdigit : c.isDigit with
  | true => exact isPlain_of_isDigit hdigit
  | false => exact hsigns c (by_contra fun hsign => ht.notMem hdigit hsign hc)

theorem isPlain_printFloat (x : Binary64) : ∀ c ∈ printFloat x, IsPlain c := by
  cases h : x.isInfinite with
  | false => exact (Binary64.isNumber_toText h _).isPlain
  | true =>
    rw [printFloat, Binary64.toText, h, if_pos rfl]
    split <;> exact List.all_iff_forall_prop.1 (by decide)

theorem isPlain_hexDigits (width n : Nat) : ∀ c ∈ Text.hexDigits width n, IsPlain c := by
  have hall : ∀ d < 16, IsPlain (Text.hexDigit d) := by decide
  induction width generalizing n with
  | zero => exact fun c hc => absurd hc List.not_mem_nil
  | succ width ih =>
    rw [Text.hexDigits, List.forall_mem_append]
    exact ⟨ih _, List.forall_mem_singleton.2 (hall _ (Nat.mod_lt _ (by decide)))⟩

theorem isPlain_escapedUnit (n : Nat) : ∀ c ∈ escapedUnit n, IsPlain c :=
  List.forall_mem_cons.2 ⟨by decide, List.forall_mem_cons.2 ⟨by decide, isPlain_hexDigits 4 n⟩⟩

theorem isPlain_escaped (c : CodePoint) : ∀ d ∈ escaped c, IsPlain d := by
  rw [escaped]
  iterate 7
    split
    · exact List.all_iff_forall_prop.1 (by decide)
  split
  · next h =>
    rw [List.forall_mem_singleton, IsPlain, toNat_ofNat_ascii c (by omega)]
    exact .inr h
  split
  · exact isPlain_escapedUnit c
  · exact List.forall_mem_append.2 ⟨isPlain_escapedUnit _, isPlain_escapedUnit _⟩

theorem isPlain_printString (s : List CodePoint) : ∀ c ∈ printString s, IsPlain c := by
  rw [printString, List.forall_mem_append, List.forall_mem_cons]
  refine ⟨⟨by decide, fun c hc => ?_⟩, List.forall_mem_singleton.2 (by decide)⟩
  obtain ⟨d, -, hd⟩ := List.mem_flatMap.1 hc
  exact isPlain_escaped d c hd

structure Style.IsPlain (style : Style) : Prop where
  margin (depth : Nat) : ∀ c ∈ style.margin depth, Json.IsPlain c
  separator (depth : Nat) : ∀ c ∈ style.separator depth, Json.IsPlain c

theorem Style.indented_isPlain : indented.IsPlain := by
  have hmargin (depth : Nat) : ∀ c ∈ indented.margin depth, Json.IsPlain c := by
    intro c hc
    rcases List.mem_cons.1 hc with rfl | hc
    · decide
    · rw [(List.mem_replicate.1 hc).2]
      decide
  exact ⟨hmargin, fun depth => List.forall_mem_cons.2 ⟨by decide, hmargin depth⟩⟩

mutual

theorem isPlain_print (hs : style.IsPlain) (depth : Nat) : (v : Json) →
    ∀ c ∈ print style depth v, IsPlain c
  | null | bool true | bool false | arr [] | obj [] => by
    rw [print]
    exact List.all_iff_forall_prop.1 (by decide)
  | int n => (isNumber_ofInt n).isPlain
  | float x => isPlain_printFloat x
  | str s => isPlain_printString s
  | arr (v :: vs) => by
    simp only [print, List.forall_mem_append, List.forall_mem_cons]
    exact ⟨⟨⟨⟨⟨by decide, hs.margin _⟩, isPlain_print hs (depth + 1) v⟩,
      isPlain_printItems hs (depth + 1) vs⟩, hs.margin _⟩, by decide, List.forall_mem_nil _⟩
  | obj ((k, v) :: ms) => by
    simp only [print, List.forall_mem_append, List.forall_mem_cons]
    exact ⟨⟨⟨⟨⟨⟨by decide, hs.margin _⟩, isPlain_printString k⟩, by decide, by decide,
      isPlain_print hs (depth + 1) v⟩, isPlain_printMembers hs (depth + 1) ms⟩, hs.margin _⟩,
      by decide, List.forall_mem_nil _⟩

theorem isPlain_printItems (hs : style.IsPlain) (depth : Nat) : (vs : List Json) →
    ∀ c ∈ printItems style depth vs, IsPlain c
  | [] => fun c hc => absurd hc List.not_mem_nil
  | v :: vs => by
    simp only [printItems, List.forall_mem_append]
    exact ⟨⟨hs.separator depth, isPlain_print hs depth v⟩, isPlain_printItems hs depth vs⟩

theorem isPlain_printMembers (hs : style.IsPlain) (depth : Nat) :
    (ms : List (List CodePoint × Json)) → ∀ c ∈ printMembers style depth ms, IsPlain c
  | [] => fun c hc => absurd hc List.not_mem_nil
  | (k, v) :: ms => by
    simp only [printMembers, List.forall_mem_append, List.forall_mem_cons]
    exact ⟨⟨⟨hs.separator depth, isPlain_printString k⟩, by decide, by decide,
      isPlain_print hs depth v⟩, isPlain_printMembers hs depth ms⟩

end

def IsScalar (s : List CodePoint) : Prop :=
  ∀ c ∈ s, ¬ IsHigh c ∧ ¬ IsLow c

theorem IsScalar.unsplit {s : List CodePoint} (hs : IsScalar s) : Unsplit s := by
  induction s with
  | nil => exact List.IsChain.nil
  | cons c s ih =>
    rw [IsScalar, List.forall_mem_cons] at hs
    exact List.isChain_cons.2 ⟨fun d _ hpair => hs.1.1 hpair.1, ih hs.2⟩

/-- The reader takes the JSON texts and no others, and it reads a value without binary64 numbers
back from its indented text, which is plain. -/
theorem render_roundTrip : (∀ t, (read? t).isSome ↔ IsText t) ∧ ∀ v : Json, v.floats = [] →
    (∀ n ∈ v.integers, (Text.ofNat n.natAbs).length ≤ Text.maxDecimalDigits) →
    (∀ s ∈ v.strings, IsScalar s) →
    ∃ t, render? v = some t ∧ read? t = some v ∧ ∀ c ∈ t, IsPlain c := by
  refine ⟨read?_isSome_iff, fun v hfloat hint hstr => ?_⟩
  refine ⟨print .indented 0 v, render?_eq_some_iff.2 ⟨hint, rfl⟩, ?_,
    isPlain_print Style.indented_isPlain 0 v⟩
  exact read?_print Style.indented_isLegal 0 hfloat fun s hs => (hstr s hs).unsplit

/-- Quotes, a line break, a delete character and one beyond the basic plane, in a nested object
with empty containers in it. -/
theorem render_roundTrip_nested :
    let v := obj [([97, 34, 10, 0x7F], arr [int (-12), bool true, null, arr [], obj []]),
      ([], str [92, 0x1F600, 0xE9])]
    (v.floats = [] ∧ (∀ n ∈ v.integers, (Text.ofNat n.natAbs).length ≤ Text.maxDecimalDigits) ∧
      ∀ s ∈ v.strings, IsScalar s) ∧
    ∃ t, render? v = some t ∧ read? t = some v ∧ ∀ c ∈ t, IsPlain c := by
  intro v
  have hfloat : v.floats = [] := rfl
  have hint : ∀ n ∈ v.integers, (Text.ofNat n.natAbs).length ≤ Text.maxDecimalDigits := by
    have hall : v.integers = [-12] := rfl
    rw [hall]
    decide
  have hstr : ∀ s ∈ v.strings, IsScalar s := by
    simp [v, strings, memberStrings, itemStrings, IsScalar, IsHigh, IsLow]
  exact ⟨⟨hfloat, hint, hstr⟩, render_roundTrip.2 v hfloat hint hstr⟩

end Json

end SliceIdl
