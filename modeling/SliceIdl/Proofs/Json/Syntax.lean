import SliceIdl.Text.Numeral

/-!
# JSON texts

The grammar of RFC 8259. A JSON text is a value with whitespace around it; the items of an array are
such texts with commas between them, and so are the values of an object behind their names.

Outside of its strings a JSON text has none but the letters of `null`, `true`, `false` and of an
exponent. So the word for infinity makes a text that is not JSON, wherever it stands in it.
-/

set_option autoImplicit false

namespace SliceIdl.Json

def IsWhitespace (t : Text) : Prop :=
  ∀ c ∈ t, c ∈ [' ', '\t', '\n', '\r']

def IsDigits (t : Text) : Prop :=
  t ≠ [] ∧ ∀ c ∈ t, c.isDigit

/-- A zero, or digits that do not start with one. -/
inductive IsWhole : Text → Prop
  | zero : IsWhole ['0']
  | positive {t : Text} (h : IsDigits t) (hz : t.head? ≠ some '0') : IsWhole t

inductive IsFraction : Text → Prop
  | none : IsFraction []
  | point {t : Text} (h : IsDigits t) : IsFraction ('.' :: t)

inductive IsExponent : Text → Prop
  | none : IsExponent []
  | power {e : Char} {sign t : Text} (he : e ∈ ['e', 'E']) (hs : sign ∈ [[], ['+'], ['-']])
      (h : IsDigits t) : IsExponent (e :: sign ++ t)

inductive IsNumber : Text → Prop
  | parts {minus whole fraction exponent : Text} (hm : minus ∈ [[], ['-']]) (hw : IsWhole whole)
      (hf : IsFraction fraction) (he : IsExponent exponent) :
      IsNumber (minus ++ whole ++ fraction ++ exponent)

inductive IsInside : Text → Prop
  | nil : IsInside []
  | plain {c : Char} {t : Text} (hc : 0x20 ≤ c.toNat) (hq : c ≠ '"') (hb : c ≠ '\\')
      (h : IsInside t) : IsInside (c :: t)
  | escape {c : Char} {t : Text} (hc : c ∈ ['"', '\\', '/', 'b', 'f', 'n', 'r', 't'])
      (h : IsInside t) : IsInside ('\\' :: c :: t)
  | unit {digits t : Text} (hl : digits.length = 4) (hd : ∀ c ∈ digits, Text.isHexDigit c)
      (h : IsInside t) : IsInside ('\\' :: 'u' :: digits ++ t)

inductive IsString : Text → Prop
  | quoted {t : Text} (h : IsInside t) : IsString ('"' :: t ++ ['"'])

mutual

inductive IsValue : Text → Prop
  | null : IsValue "null".toList
  | true : IsValue "true".toList
  | false : IsValue "false".toList
  | number {t : Text} (h : IsNumber t) : IsValue t
  | string {t : Text} (h : IsString t) : IsValue t
  | emptyArray {space : Text} (h : IsWhitespace space) : IsValue ('[' :: space ++ [']'])
  | array {t : Text} (h : IsItems t) : IsValue ('[' :: t ++ [']'])
  | emptyObject {space : Text} (h : IsWhitespace space) : IsValue ('\x7b' :: space ++ ['\x7d'])
  | object {t : Text} (h : IsMembers t) : IsValue ('\x7b' :: t ++ ['\x7d'])

inductive IsText : Text → Prop
  | padded {before v after : Text} (hb : IsWhitespace before) (hv : IsValue v)
      (ha : IsWhitespace after) : IsText (before ++ v ++ after)

inductive IsItems : Text → Prop
  | last {t : Text} (h : IsText t) : IsItems t
  | next {t rest : Text} (h : IsText t) (hr : IsItems rest) : IsItems (t ++ ',' :: rest)

inductive IsMembers : Text → Prop
  | last {before name after t : Text} (hb : IsWhitespace before) (hn : IsString name)
      (ha : IsWhitespace after) (h : IsText t) : IsMembers (before ++ name ++ after ++ ':' :: t)
  | next {before name after t rest : Text} (hb : IsWhitespace before) (hn : IsString name)
      (ha : IsWhitespace after) (h : IsText t) (hr : IsMembers rest) :
      IsMembers (before ++ name ++ after ++ ':' :: t ++ ',' :: rest)

end

/-- What of a text stands outside of its strings; the flag says whether the text starts inside of
one. -/
def outside : Bool → Text → Text
  | _, [] => []
  | false, c :: t => if c = '"' then outside true t else c :: outside false t
  | true, '"' :: t => outside false t
  | true, '\\' :: _ :: t => outside true t
  | true, _ :: t => outside true t

/-- The text ends outside of strings, and outside of its strings it has the letter that the word for
infinity starts with if and only if `p`. -/
def Shows (p : Prop) (t : Text) : Prop :=
  ∃ own, (∀ rest, outside false (t ++ rest) = own ++ outside false rest) ∧ ('I' ∈ own ↔ p)

variable {p q : Prop} {t u : Text}

theorem Shows.append (ht : Shows p t) (hu : Shows q u) : Shows (p ∨ q) (t ++ u) := by
  obtain ⟨own, hown, hp⟩ := ht
  obtain ⟨own', hown', hq⟩ := hu
  refine ⟨own ++ own', fun rest => ?_, by rw [List.mem_append, hp, hq]⟩
  rw [List.append_assoc, hown, hown', List.append_assoc]

theorem Shows.of_iff (h : Shows p t) (hpq : p ↔ q) : Shows q t := by
  obtain ⟨own, hown, hp⟩ := h
  exact ⟨own, hown, hp.trans hpq⟩

theorem Shows.mem_iff (h : Shows p t) : 'I' ∈ outside false t ↔ p := by
  obtain ⟨own, hown, hp⟩ := h
  have hall := hown []
  rw [List.append_nil, outside, List.append_nil] at hall
  rw [hall, hp]

theorem shows_of_quoteless (h : '"' ∉ t) : Shows ('I' ∈ t) t := by
  refine ⟨t, fun rest => ?_, Iff.rfl⟩
  induction t with
  | nil => rfl
  | cons c t ih =>
    rw [List.mem_cons, not_or] at h
    rw [List.cons_append, outside, if_neg (Ne.symm h.1), ih h.2, List.cons_append]

theorem shows_plain (hq : '"' ∉ t) (hI : 'I' ∉ t) : Shows False t :=
  (shows_of_quoteless hq).of_iff (iff_false_intro hI)

theorem Shows.plain_append (ht : Shows False t) (hu : Shows p u) : Shows p (t ++ u) :=
  (ht.append hu).of_iff (by rw [false_or])

theorem Shows.append_plain (ht : Shows p t) (hu : Shows False u) : Shows p (t ++ u) :=
  (ht.append hu).of_iff (by rw [or_false])

theorem outside_hexDigits {digits : Text} (hd : ∀ c ∈ digits, Text.isHexDigit c) (rest : Text) :
    outside true (digits ++ rest) = outside true rest := by
  induction digits with
  | nil => rfl
  | cons c digits ih =>
    have hc := hd c List.mem_cons_self
    rw [List.cons_append, outside, ih fun d hmem => hd d (List.mem_cons_of_mem _ hmem)]
    · rintro rfl
      revert hc
      decide
    · rintro d t rfl -
      revert hc
      decide

theorem IsInside.outside_eq (h : IsInside t) (rest : Text) :
    outside true (t ++ '"' :: rest) = outside false rest := by
  induction h with
  | nil => rw [List.nil_append, outside]
  | plain hc hq hb h ih =>
    rw [List.cons_append, outside, ih]
    · exact hq
    · intro d t hd
      exact absurd hd hb
  | escape hc h ih => rw [List.cons_append, List.cons_append, outside, ih]
  | unit hl hd h ih =>
    rw [List.cons_append, List.cons_append, List.cons_append, List.cons_append, outside,
      List.append_assoc, outside_hexDigits hd, ih]

theorem IsString.shows (h : IsString t) : Shows False t := by
  cases h with
  | quoted h =>
    refine ⟨[], fun rest => ?_, by simp⟩
    rw [List.cons_append, List.cons_append, outside, if_pos rfl, List.append_assoc,
      List.singleton_append, h.outside_eq, List.nil_append]

theorem IsWhitespace.shows (h : IsWhitespace t) : Shows False t := by
  apply shows_plain
  · intro hq
    have := h _ hq
    revert this
    decide
  · intro hI
    have := h _ hI
    revert this
    decide

theorem IsDigits.notMem (h : IsDigits t) {c : Char} (hc : c.isDigit = false) : c ∉ t := by
  intro hmem
  rw [h.2 c hmem] at hc
  cases hc

def numberSigns : List Char :=
  ['-', '+', '.', 'e', 'E']

theorem IsWhole.notMem (h : IsWhole t) {c : Char} (hc : c.isDigit = false) : c ∉ t := by
  cases h with
  | zero =>
    rw [List.mem_singleton]
    rintro rfl
    cases hc
  | positive h => exact h.notMem hc

theorem IsFraction.notMem (h : IsFraction t) {c : Char} (hc : c.isDigit = false)
    (hs : c ∉ numberSigns) : c ∉ t := by
  cases h with
  | none => exact List.not_mem_nil
  | point h =>
    rw [List.mem_cons, not_or]
    refine ⟨?_, h.notMem hc⟩
    rintro rfl
    exact hs (by decide)

theorem IsExponent.notMem (h : IsExponent t) {c : Char} (hc : c.isDigit = false)
    (hs : c ∉ numberSigns) : c ∉ t := by
  have signs : ∀ sign ∈ [[], ['+'], ['-']], ∀ d ∈ sign, d ∈ numberSigns := by simp [numberSigns]
  cases h with
  | none => exact List.not_mem_nil
  | @power e sign t he hsign h =>
    have hmark : ∀ d ∈ e :: sign, d ∈ numberSigns :=
      List.forall_mem_cons.2 ⟨List.mem_append_right ['-', '+', '.'] he, signs sign hsign⟩
    rw [List.mem_append, not_or]
    exact ⟨fun hmem => hs (hmark c hmem), h.notMem hc⟩

theorem IsNumber.notMem (h : IsNumber t) {c : Char} (hc : c.isDigit = false)
    (hs : c ∉ numberSigns) : c ∉ t := by
  cases h with
  | @parts minus whole fraction exponent hm hw hf he =>
    have hsign : ∀ sign ∈ [[], ['-']], ∀ d ∈ sign, d ∈ numberSigns := by simp [numberSigns]
    have hminus : c ∉ minus := fun hmem => hs (hsign minus hm c hmem)
    simp only [List.mem_append, not_or]
    exact ⟨⟨⟨hminus, hw.notMem hc⟩, hf.notMem hc hs⟩, he.notMem hc hs⟩

theorem IsNumber.shows (h : IsNumber t) : Shows False t :=
  shows_plain (h.notMem rfl (by decide)) (h.notMem rfl (by decide))

theorem Shows.mark {c : Char} (hc : c ∉ ['"', 'I']) (h : Shows p t) : Shows p (c :: t) := by
  simp only [List.mem_cons, List.not_mem_nil, or_false, not_or] at hc
  have hmark : Shows False [c] :=
    shows_plain (fun h => hc.1 (List.mem_singleton.1 h).symm)
      (fun h => hc.2 (List.mem_singleton.1 h).symm)
  exact hmark.plain_append h

theorem Shows.closed {c : Char} (hc : c ∉ ['"', 'I']) (h : Shows p t) : Shows p (t ++ [c]) :=
  h.append_plain ((shows_plain List.not_mem_nil List.not_mem_nil).mark hc)

mutual

theorem IsValue.shows {t : Text} : IsValue t → Shows False t
  | .null | .true | .false => shows_plain (by decide) (by decide)
  | .number h => h.shows
  | .string h => h.shows
  | .emptyArray h => (h.shows.mark (by decide)).closed (by decide)
  | .array h => (h.shows.mark (by decide)).closed (by decide)
  | .emptyObject h => (h.shows.mark (by decide)).closed (by decide)
  | .object h => (h.shows.mark (by decide)).closed (by decide)

theorem IsText.shows {t : Text} : IsText t → Shows False t
  | .padded hb hv ha => (hb.shows.plain_append hv.shows).plain_append ha.shows

theorem IsItems.shows {t : Text} : IsItems t → Shows False t
  | .last h => h.shows
  | .next h hr => h.shows.plain_append (hr.shows.mark (by decide))

theorem IsMembers.shows {t : Text} : IsMembers t → Shows False t
  | .last hb hn ha h =>
    ((hb.shows.plain_append hn.shows).plain_append ha.shows).plain_append (h.shows.mark (by decide))
  | .next hb hn ha h hr =>
    (((hb.shows.plain_append hn.shows).plain_append ha.shows).plain_append
      (h.shows.mark (by decide))).plain_append (hr.shows.mark (by decide))

end

/-- A text that shows the word for infinity is not a JSON text. -/
theorem Shows.not_isText (h : Shows p t) (hp : p) : ¬ IsText t := fun htext =>
  htext.shows.mem_iff.1 (h.mem_iff.2 hp)

end SliceIdl.Json
