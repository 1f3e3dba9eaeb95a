import SliceIdl.Proofs.Document.Includes

/-!
# Tokens that are refused

A token of the grammar may still mean nothing: a string with an escape that names no code point,
an integer with more decimal digits than allowed, an include line whose path names no source file.
What is wrong with the text is said here without a look at how it is read; these are the texts that
have no value, and no others.
-/

set_option autoImplicit false

namespace SliceIdl
open Text Lexeme Literal

variable {t r : Text} {p : CodePoint}

namespace Numeral

variable {value? : Char → Option Nat} {base n : Nat}

theorem of_digits (hne : t ≠ []) (h : ∀ c ∈ t, (value? c).isSome) :
    Numeral value? base (ofDigits base (t.filterMap value?)) t := by
  have hexists : ∃ n, Numeral value? base n t := by
    induction t using List.reverseRecOn with
    | nil => exact absurd rfl hne
    | append_singleton l c ih =>
      obtain ⟨d, hd⟩ := Option.isSome_iff_exists.1 (h c (by simp))
      by_cases hl : l = []
      · subst hl
        exact ⟨d, .digit hd⟩
      · obtain ⟨n, hn⟩ := ih hl fun c' hc => h c' (by simp [hc])
        exact ⟨_, hn.snoc hd⟩
  obtain ⟨n, hn⟩ := hexists
  rwa [hn.ofDigits_eq]

theorem lt_pow (hn : Numeral value? base n t) (h : ∀ c ∈ t, ∀ d ∈ value? c, d < base) :
    n < base ^ t.length := by
  induction hn with
  | digit hd => simpa using h _ List.mem_cons_self _ hd
  | @snoc c d n l _ hd ih =>
    have hl := ih fun c' hc => h c' (by simp [hc])
    have hdigit := h c (by simp) d hd
    calc n * base + d < n * base + base := by omega
      _ = (n + 1) * base := by ring
      _ ≤ base ^ l.length * base := Nat.mul_le_mul_right base hl
      _ = base ^ (l ++ [c]).length := by rw [List.length_append, List.length_singleton, pow_succ]

end Numeral

theorem hexValue?_octal {c : Char} (h : isOctalDigit c) : ∃ d < 8, hexValue? c = some d := by
  simp only [isOctalDigit, Bool.and_eq_true, decide_eq_true_eq, char_le_iff] at h
  have hlow : 48 ≤ c.toNat := h.1
  have hhigh : c.toNat ≤ 55 := h.2
  refine ⟨c.toNat - 48, by omega, ?_⟩
  rw [hexValue?, if_pos]
  simp only [char_le_iff]
  exact ⟨hlow, Nat.le_trans hhigh (by decide)⟩

theorem isHexDigit_of_isOctalDigit {c : Char} (h : isOctalDigit c) : isHexDigit c := by
  obtain ⟨d, -, hd⟩ := hexValue?_octal h
  exact Option.isSome_of_eq_some hd

def StartsWithHex (count : Nat) (t : Text) : Prop :=
  ∃ digits r, t = digits ++ r ∧ digits.length = count ∧ ∀ c ∈ digits, isHexDigit c

/-- What follows a backslash and announces hexadecimal digits, but has too few of them or names no
code point by them. -/
inductive BadEscape : Text → Prop
  | short {t : Text} (h : ¬ StartsWithHex 4 t) : BadEscape ('u' :: t)
  | long {t : Text} (h : ¬ StartsWithHex 8 t) : BadEscape ('U' :: t)
  | empty {t : Text} (h : HeadNot isHexDigit t) : BadEscape ('x' :: t)
  | longRange {digits t : Text} {n : Nat} (hn : Numeral hexValue? 16 n digits)
      (hlen : digits.length = 8) (h : 0x10ffff < n) : BadEscape ('U' :: digits ++ t)
  | hexadecimalRange {digits t : Text} {n : Nat} (hn : Numeral hexValue? 16 n digits)
      (hend : HeadNot isHexDigit t) (h : 0x10ffff < n) : BadEscape ('x' :: digits ++ t)

theorem exactHex?_eq_some {k : Nat} {digits : Text} : exactHex? k t = some (digits, r) ↔
    t = digits ++ r ∧ digits.length = k ∧ ∀ c ∈ digits, isHexDigit c := by
  constructor
  · intro h
    rw [exactHex?] at h
    split at h
    · next hd =>
      simp only [Option.some.injEq, Prod.mk.injEq] at h
      obtain ⟨rfl, rfl⟩ := h
      exact ⟨(List.take_append_drop k t).symm, hd.1, List.all_eq_true.1 hd.2⟩
    · cases h
  · rintro ⟨rfl, hlen, hd⟩
    exact exactHex?_append hd hlen

theorem exactHex?_eq_none {k : Nat} : exactHex? k t = none ↔ ¬ StartsWithHex k t := by
  constructor
  · rintro h ⟨digits, r, rfl, hlen, hd⟩
    rw [exactHex?_append hd hlen] at h
    cases h
  · intro h
    cases hs : exactHex? k t with
    | none => rfl
    | some s => exact absurd ⟨s.1, s.2, exactHex?_eq_some.1 hs⟩ h

theorem numbered_eq_none {digits : Text} :
    escape?.numbered (some (digits, r)) = none ↔ 0x10ffff < hexNumber digits := by
  rw [escape?.numbered, Option.map_eq_none_iff, CodePoint.ofNat?]
  split <;> simp <;> omega

theorem numbered_eq_some {s : Option (Text × Text)} (h : escape?.numbered s = some (p, r)) :
    ∃ digits, s = some (digits, r) := by
  cases s with
  | none => cases h
  | some s =>
    simp only [escape?.numbered, Option.map_eq_some_iff, Prod.mk.injEq] at h
    obtain ⟨-, -, -, rfl⟩ := h
    exact ⟨s.1, rfl⟩

theorem octalRun_spec (t : Text) : (octalRun t).1 ++ (octalRun t).2 = t ∧
    (octalRun t).1.length ≤ 3 ∧ ∀ c ∈ (octalRun t).1, isOctalDigit c := by
  have hprefix : (t.take 3).takeWhile isOctalDigit <+: t :=
    (List.takeWhile_prefix _).trans (List.take_prefix 3 t)
  refine ⟨List.prefix_iff_eq_append.1 hprefix, ?_, fun c hc => List.mem_takeWhile_imp hc⟩
  exact (List.takeWhile_prefix _).length_le.trans (List.length_take_le 3 t)

theorem exists_of_escape? {c : Char} (h : escape? (c :: t) = some (p, r)) :
    ∃ digits, t = digits ++ r ∧ ∀ d ∈ digits, isHexDigit d := by
  rw [escape?] at h
  split at h
  · obtain ⟨digits, hs⟩ := numbered_eq_some h
    exact ⟨digits, (exactHex?_eq_some.1 hs).1, (exactHex?_eq_some.1 hs).2.2⟩
  split at h
  · obtain ⟨digits, hs⟩ := numbered_eq_some h
    exact ⟨digits, (exactHex?_eq_some.1 hs).1, (exactHex?_eq_some.1 hs).2.2⟩
  split at h
  · split at h
    · cases h
    · obtain ⟨digits, hs⟩ := numbered_eq_some h
      simp only [Option.some.injEq, Prod.mk.injEq] at hs
      obtain ⟨-, rfl⟩ := hs
      exact ⟨t.takeWhile isHexDigit, List.takeWhile_append_dropWhile.symm,
        fun d hd => List.mem_takeWhile_imp hd⟩
  split at h
  · next ho =>
    simp only [Option.map_eq_some_iff, Prod.mk.injEq] at h
    obtain ⟨-, -, -, rfl⟩ := h
    obtain ⟨happend, -, hoctal⟩ := octalRun_spec (c :: t)
    have hfirst : (octalRun (c :: t)).1 = c :: (t.take 2).takeWhile isOctalDigit := by
      rw [octalRun, List.take_succ_cons, List.takeWhile_cons_of_pos ho]
    rw [hfirst] at happend hoctal
    exact ⟨_, (List.cons.inj happend).2.symm, fun d hd =>
      isHexDigit_of_isOctalDigit (hoctal d (List.mem_cons_of_mem c hd))⟩
  · simp only [Option.some.injEq, Prod.mk.injEq] at h
    exact ⟨[], h.2, by simp⟩

theorem numeral_hexNumber {digits : Text} (hne : digits ≠ []) (hd : ∀ c ∈ digits, isHexDigit c) :
    Numeral hexValue? 16 (hexNumber digits) digits :=
  .of_digits hne hd

theorem escape?_short : escape? ('u' :: t) = none ↔ ¬ StartsWithHex 4 t := by
  rw [escape?, if_pos rfl, ← exactHex?_eq_none]
  cases hs : exactHex? 4 t with
  | none => simp [escape?.numbered]
  | some s =>
    obtain ⟨digits, r⟩ := s
    obtain ⟨-, hlen, hd⟩ := exactHex?_eq_some.1 hs
    have hne : digits ≠ [] := by
      rintro rfl
      cases hlen
    have hlt := (numeral_hexNumber hne hd).lt_pow fun c _ d => hexValue?_lt
    rw [hlen] at hlt
    rw [numbered_eq_none]
    constructor
    · intro h
      exact absurd (Nat.lt_trans h hlt) (by decide)
    · intro h
      cases h

theorem escape?_long : escape? ('U' :: t) = none ↔ ¬ StartsWithHex 8 t ∨
    ∃ digits r n, t = digits ++ r ∧ digits.length = 8 ∧ Numeral hexValue? 16 n digits ∧
      0x10ffff < n := by
  rw [escape?, if_neg (by decide), if_pos rfl, ← exactHex?_eq_none]
  cases hs : exactHex? 8 t with
  | none => simp [escape?.numbered]
  | some s =>
    obtain ⟨digits, r⟩ := s
    obtain ⟨rfl, hlen, hd⟩ := exactHex?_eq_some.1 hs
    rw [numbered_eq_none, or_iff_right (by simp)]
    constructor
    · intro h
      have hne : digits ≠ [] := by
        rintro rfl
        cases hlen
      exact ⟨digits, r, _, rfl, hlen, numeral_hexNumber hne hd, h⟩
    · rintro ⟨digits', r', n, heq, hlen', hn, h⟩
      obtain ⟨rfl, -⟩ := List.append_inj heq (hlen.trans hlen'.symm)
      rwa [hexNumber, hn.ofDigits_eq]

theorem escape?_hex : escape? ('x' :: t) = none ↔ HeadNot isHexDigit t ∨
    ∃ digits r n, t = digits ++ r ∧ Numeral hexValue? 16 n digits ∧ HeadNot isHexDigit r ∧
      0x10ffff < n := by
  rw [escape?, if_neg (by decide), if_neg (by decide), if_pos rfl]
  constructor
  · intro h
    split at h
    · next hnil =>
      refine .inl ?_
      cases t with
      | nil => exact headNot_nil
      | cons c t =>
        refine headNot_cons.2 (Bool.eq_false_iff.2 fun hc => ?_)
        rw [List.takeWhile_cons_of_pos hc] at hnil
        cases hnil
    · next hne =>
      rw [numbered_eq_none] at h
      exact .inr ⟨t.takeWhile isHexDigit, t.dropWhile isHexDigit, _,
        List.takeWhile_append_dropWhile.symm,
        numeral_hexNumber hne fun c hc => List.mem_takeWhile_imp hc, headNot_dropWhile _ t, h⟩
  · rintro (h | ⟨digits, r, n, rfl, hn, hr, h⟩)
    · have hnil : t.takeWhile isHexDigit = [] := takeWhile_append (l := []) (by simp) h
      rw [hnil]
    · rw [takeWhile_append (p := isHexDigit) hn.isSome hr]
      split
      · rfl
      · rwa [numbered_eq_none, hexNumber, hn.ofDigits_eq]

theorem escape?_other {c : Char} (hc : c ∉ ['u', 'U', 'x']) (t : Text) :
    escape? (c :: t) ≠ none := by
  simp only [List.mem_cons, List.not_mem_nil, or_false, not_or] at hc
  rw [escape?, if_neg hc.1, if_neg hc.2.1, if_neg hc.2.2]
  split
  · next ho =>
    obtain ⟨-, hlen, hoctal⟩ := octalRun_spec (c :: t)
    have hne : (octalRun (c :: t)).1 ≠ [] := by
      rw [octalRun, List.take_succ_cons, List.takeWhile_cons_of_pos ho]
      simp
    have hn : Numeral hexValue? 8 (ofDigits 8 ((octalRun (c :: t)).1.filterMap hexValue?))
        (octalRun (c :: t)).1 :=
      .of_digits hne fun d hd => isHexDigit_of_isOctalDigit (hoctal d hd)
    have hlt := hn.lt_pow fun d hd k hk => by
      obtain ⟨k', hlt, hk'⟩ := hexValue?_octal (hoctal d hd)
      rw [hk'] at hk
      cases hk
      exact hlt
    have hpow : 8 ^ (octalRun (c :: t)).1.length ≤ 8 ^ 3 := Nat.pow_le_pow_right (by decide) hlen
    have hrange : ofDigits 8 ((octalRun (c :: t)).1.filterMap hexValue?) < 0x110000 := by omega
    simp [CodePoint.ofNat?, hrange]
  · simp

theorem escape?_eq_none {c : Char} : escape? (c :: t) = none ↔ BadEscape (c :: t) := by
  constructor
  · intro h
    by_cases hc : c ∈ ['u', 'U', 'x']
    · simp only [List.mem_cons, List.not_mem_nil, or_false] at hc
      rcases hc with rfl | rfl | rfl
      · exact .short (escape?_short.1 h)
      · rcases escape?_long.1 h with h | ⟨digits, r, n, rfl, hlen, hn, h⟩
        · exact .long h
        · exact .longRange hn hlen h
      · rcases escape?_hex.1 h with h | ⟨digits, r, n, rfl, hn, hr, h⟩
        · exact .empty h
        · exact .hexadecimalRange hn hr h
    · exact absurd h (escape?_other hc t)
  · intro h
    generalize hct : c :: t = ct at h
    cases h with
    | short h => exact escape?_short.2 h
    | long h => exact escape?_long.2 (.inl h)
    | empty h => exact escape?_hex.2 (.inl h)
    | longRange hn hlen h => exact escape?_long.2 (.inr ⟨_, _, _, rfl, hlen, hn, h⟩)
    | hexadecimalRange hn hend h => exact escape?_hex.2 (.inr ⟨_, _, _, rfl, hn, hend, h⟩)

/-- In some place where an escape starts stands a bad one. -/
def BadString (s : Text) : Prop :=
  ∃ t rest, s = t ++ '\\' :: rest ∧ Inside t ∧ BadEscape rest

theorem decode?_of_escape?_none (h : escape? t = none) : decode? ('\\' :: t) = none := by
  rw [decode?, if_pos rfl]
  split
  · rfl
  · next hs =>
    rw [h] at hs
    cases hs

theorem Lexeme.Inside.tail {c : Char} (h : Inside (c :: t)) (hc : c ≠ '\\') : Inside t := by
  cases h with
  | char _ _ _ h => exact h
  | escape _ h => exact absurd rfl hc

theorem Lexeme.Inside.of_append {digits : Text} (h : Inside (digits ++ t))
    (hd : ∀ c ∈ digits, isHexDigit c) : Inside t := by
  induction digits with
  | nil => exact h
  | cons c digits ih =>
    have hc : c ≠ '\\' := by
      rintro rfl
      exact absurd (hd '\\' List.mem_cons_self) (by decide)
    exact ih (h.tail hc) fun c' hc' => hd c' (List.mem_cons_of_mem c hc')

theorem exists_of_decode?_none {s : Text} (hs : Inside s) (h : decode? s = none) :
    BadString s := by
  induction hn : s.length using Nat.strong_induction_on generalizing s with
  | _ n ih =>
    subst hn
    cases hs with
    | nil =>
      rw [decode?] at h
      cases h
    | @char c t hq hb hnl ht =>
      rw [decode?, if_neg hb, Option.map_eq_none_iff] at h
      obtain ⟨l, rest, rfl, hl, hbad⟩ := ih t.length (Nat.lt_succ_self _) ht h rfl
      exact ⟨c :: l, rest, rfl, .char hq hb hnl hl, hbad⟩
    | @escape c t hnl ht =>
      cases he : escape? (c :: t) with
      | none => exact ⟨[], c :: t, rfl, .nil, escape?_eq_none.1 he⟩
      | some s =>
        obtain ⟨p, r⟩ := s
        rw [decode?_escape he, Option.map_eq_none_iff] at h
        obtain ⟨digits, rfl, hd⟩ := exists_of_escape? he
        have hlt : r.length < ('\\' :: c :: (digits ++ r)).length := by
          simp only [List.length_cons, List.length_append]
          omega
        obtain ⟨l, rest, rfl, hl, hbad⟩ := ih r.length hlt (ht.of_append hd) h rfl
        exact ⟨'\\' :: c :: (digits ++ l), rest, by simp, .escape hnl (inside_append hd hl), hbad⟩

theorem exists_of_escape?_append {c : Char} {rest : Text}
    (h : escape? (c :: (t ++ '\\' :: rest)) = some (p, r)) :
    ∃ digits m, t = digits ++ m ∧ r = m ++ '\\' :: rest ∧ ∀ d ∈ digits, isHexDigit d := by
  -- The digits of an escape end in front of the next backslash.
  obtain ⟨digits, heq, hd⟩ := exists_of_escape? h
  rcases List.append_eq_append_iff.1 heq with ⟨m, rfl, hr⟩ | ⟨m, rfl, hr⟩
  · cases m with
    | nil => exact ⟨t, [], by simp, hr.symm, fun d ht => hd d (by simp [ht])⟩
    | cons b m =>
      obtain rfl : '\\' = b := (List.cons.inj hr).1
      exact absurd (hd '\\' (by simp)) (by decide)
  · exact ⟨digits, m, rfl, hr, hd⟩

theorem decode?_of_badString {s : Text} (h : BadString s) : decode? s = none := by
  obtain ⟨l, rest, rfl, hl, hbad⟩ := h
  induction hn : l.length using Nat.strong_induction_on generalizing l with
  | _ n ih =>
    subst hn
    cases hl with
    | nil =>
      refine decode?_of_escape?_none ?_
      cases rest with
      | nil => cases hbad
      | cons c rest => exact escape?_eq_none.2 hbad
    | @char c t hq hb hnl ht =>
      rw [List.cons_append, decode?, if_neg hb, ih t.length (Nat.lt_succ_self _) t ht rfl,
        Option.map_none]
    | @escape c t hnl ht =>
      rw [List.cons_append, List.cons_append]
      cases he : escape? (c :: (t ++ '\\' :: rest)) with
      | none => exact decode?_of_escape?_none he
      | some s =>
        obtain ⟨p, r⟩ := s
        rw [decode?_escape he, Option.map_eq_none_iff]
        obtain ⟨digits, m, rfl, rfl, hd⟩ := exists_of_escape?_append he
        exact ih m.length (by simp; omega) m (ht.of_append hd) rfl

theorem ofToken?_eq_none {s : Text} (hs : Inside s) :
    ofToken? ('"' :: s ++ ['"']) = none ↔ BadString s := by
  have hinside : inside ('"' :: s ++ ['"']) = s := by simp [inside]
  rw [ofToken?, hinside]
  exact ⟨exists_of_decode?_none hs, decode?_of_badString⟩

theorem int_digits_eq_ok {sign digits : Text} (hs : IsSign sign) (hne : digits ≠ [])
    (hd : ∀ c ∈ digits, isDecimalDigit c) :
    (∃ n, Literal.int (sign ++ digits) = .ok n) ↔ digits.length ≤ maxDecimalDigits := by
  rw [int_digits hs hne hd]
  split
  · next h => simpa using h
  · next h => simpa using h

theorem int_hexDigits_eq_ok {sign digits : Text} {x : Char} (hs : IsSign sign)
    (hx : x = 'x' ∨ x = 'X') (hne : digits ≠ []) (hd : ∀ c ∈ digits, isHexDigit c) :
    ∃ n, Literal.int (sign ++ '0' :: x :: digits) = .ok n :=
  ⟨_, int_hexadecimal hs hx (numeral_hexNumber hne hd)⟩

theorem Lexeme.Fits.int_eq_ok {n : Int} (h : Fits ⟨.int, t⟩) :
    Literal.int t = .ok n ↔ IntText n t := by
  refine ⟨fun hn => ?_, IntText.int_eq⟩
  obtain ⟨sign, digits, hs, hne, ⟨rfl, hd⟩ | ⟨x, hx, rfl, hd⟩⟩ := h.exists_digits
  · rw [int_digits hs hne hd] at hn
    split at hn
    · cases hn
    · next hlen =>
      cases hn
      exact .decimal hs (.of_digits hne hd) (Nat.not_lt.1 hlen)
  · rw [int_hexadecimal hs hx (numeral_hexNumber hne hd)] at hn
    cases hn
    exact .hexadecimal hs hx (numeral_hexNumber hne hd)

/-- What can be wrong with a token: the path of an include line names no source file, an escape in
a string is a bad one, or an integer has more decimal digits than allowed. -/
inductive Lexeme.Flawed : Lexeme → Prop
  | includeFile {a b s : Text} {opening closing : Char} (ha : IsInline a) (hb : IsInline b)
      (ho : opening = '<' ∨ opening = '"')
      (h : ¬ ".ice".toList <:+ trimmed s ∨ trimmed s = ".ice".toList) :
      Flawed ⟨.includeFile, '#' :: a ++ "include".toList ++ b ++ opening :: s ++ [closing]⟩
  | string {s : Text} (h : BadString s) : Flawed ⟨.string, '"' :: s ++ ['"']⟩
  | int {sign digits : Text} (hs : IsSign sign) (hd : ∀ c ∈ digits, isDecimalDigit c)
      (hlen : 4300 < digits.length) : Flawed ⟨.int, sign ++ digits⟩

def Token.HasValue (t : Token) : Prop :=
  match t.kind with
  | .string => (ofToken? t.text).isSome
  | .int => ∃ n, Literal.int t.text = .ok n
  | .includeFile => (Grammar.includeName? (Grammar.includeTarget t.text)).isSome
  | _ => True

theorem includeName?_eq_none {target : Text} : Grammar.includeName? target = none ↔
    ¬ ".ice".toList <:+ target ∨ target = ".ice".toList := by
  rw [Grammar.includeName?, Option.map_eq_none_iff, Option.eq_none_iff_forall_ne_some]
  simp only [ne_eq, stem?_eq_some_iff, sourceExtension]
  constructor
  · intro h
    by_cases hsuffix : ".ice".toList <:+ target
    · obtain ⟨stem, rfl⟩ := hsuffix
      cases stem with
      | nil => exact .inr rfl
      | cons c stem => exact absurd ⟨by simp, rfl⟩ (h (c :: stem))
    · exact .inl hsuffix
  · rintro (h | rfl) stem ⟨hne, heq⟩
    · exact h ⟨stem, heq.symm⟩
    · exact hne (List.self_eq_append_left.1 heq)

namespace Token

variable {t : Token}

theorem not_hasValue_of_flawed (h : t.lexeme.Flawed) : ¬ t.HasValue := by
  obtain ⟨kind, text, pos⟩ := t
  rw [lexeme] at h
  generalize hl : (⟨kind, text⟩ : Lexeme) = l at h
  cases h with
  | includeFile ha hb ho hpath =>
    cases hl
    show ¬ (Grammar.includeName? (Grammar.includeTarget _)).isSome = true
    rw [includeTarget_eq ha hb ho, includeName?_eq_none.2 hpath]
    simp
  | @string s hbad =>
    cases hl
    simp [HasValue, ofToken?, inside, decode?_of_badString hbad]
  | int hs hd hlen =>
    cases hl
    have hne := List.ne_nil_of_length_pos (Nat.lt_trans (by decide) hlen)
    show ¬ ∃ n, Literal.int _ = .ok n
    rw [int_digits_eq_ok hs hne hd]
    exact Nat.not_le.2 hlen

theorem IsFit.flawed (h : t.IsFit) (hv : ¬ t.HasValue) : t.lexeme.Flawed := by
  obtain ⟨kind, text, pos⟩ := t
  rw [lexeme]
  cases kind with
  | string =>
    obtain ⟨s, hs, rfl⟩ := (h (by simp)).exists_inside
    have hnone : ofToken? ('"' :: s ++ ['"']) = none := by simpa [HasValue] using hv
    exact .string ((ofToken?_eq_none hs).1 hnone)
  | int =>
    have hint : ¬ ∃ n, Literal.int text = .ok n := hv
    obtain ⟨sign, digits, hs, hne, ⟨rfl, hd⟩ | ⟨x, hx, rfl, hd⟩⟩ := (h (by simp)).exists_digits
    · rw [int_digits_eq_ok hs hne hd, Nat.not_le] at hint
      exact .int hs hd hint
    · exact absurd (int_hexDigits_eq_ok hs hx hne hd) hint
  | includeFile =>
    obtain ⟨a, b, s, opening, closing, ha, hb, -, -, hmem, rfl⟩ := (h (by simp)).includeFile
    have ho : opening = '<' ∨ opening = '"' := by
      simp only [List.mem_cons, Prod.mk.injEq, List.not_mem_nil, or_false] at hmem
      exact hmem.imp And.left And.left
    refine .includeFile ha hb ho (includeName?_eq_none.1 ?_)
    rw [← includeTarget_eq ha hb ho]
    simpa [HasValue] using hv
  | _ => exact absurd trivial hv

end Token

end SliceIdl
