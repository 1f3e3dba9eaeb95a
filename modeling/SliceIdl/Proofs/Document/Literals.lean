import SliceIdl.Document.Build
import SliceIdl.Proofs.Source.Patterns

/-!
# How literals are written

A number, a string or the name of an included file can be written in many ways. Each way is said
by a relation between the value and the text; every text that it allows is a token of the kind, and
its value is the one that was written.
-/

set_option autoImplicit false

namespace SliceIdl
open Text Lexeme

inductive Numeral (value? : Char → Option Nat) (base : Nat) : Nat → Text → Prop
  | digit {c : Char} {d : Nat} (h : value? c = some d) : Numeral value? base d [c]
  | snoc {c : Char} {d n : Nat} {t : Text} (ht : Numeral value? base n t)
      (h : value? c = some d) : Numeral value? base (n * base + d) (t ++ [c])

namespace Numeral

variable {value? : Char → Option Nat} {base n : Nat} {t : Text}

theorem ne_nil (h : Numeral value? base n t) : t ≠ [] := by
  cases h <;> simp

theorem isSome (h : Numeral value? base n t) : ∀ c ∈ t, (value? c).isSome := by
  induction h with
  | digit h => simp [h]
  | snoc _ h ih =>
    intro c hc
    rcases List.mem_append.1 hc with hc | hc
    · exact ih c hc
    · simp [List.mem_singleton.1 hc, h]

theorem ofDigits_eq (h : Numeral value? base n t) :
    ofDigits base (t.filterMap value?) = n := by
  induction h with
  | digit h => simp [h, ofDigits]
  | snoc _ h ih =>
    rw [List.filterMap_append, ofDigits, List.foldl_append, ← ofDigits, ih]
    simp [h]

end Numeral

namespace Literal

def withSign (s : Text) (n : Nat) : Int :=
  if s = ['-'] then -(n : Int) else n

inductive IntText : Int → Text → Prop
  | decimal {s digits : Text} {n : Nat} (hs : IsSign s) (hn : Numeral digitValue? 10 n digits)
      (hlen : digits.length ≤ maxDecimalDigits) : IntText (withSign s n) (s ++ digits)
  | hexadecimal {s digits : Text} {x : Char} {n : Nat} (hs : IsSign s) (hx : x = 'x' ∨ x = 'X')
      (hn : Numeral hexValue? 16 n digits) : IntText (withSign s n) (s ++ '0' :: x :: digits)

theorem IntText.fits {n : Int} {t : Text} (h : IntText n t) : Fits ⟨.int, t⟩ := by
  cases h with
  | decimal hs hn => exact .decimal hs hn.ne_nil hn.isSome
  | hexadecimal hs hx hn => exact .hexadecimal hs hx hn.ne_nil hn.isSome

theorem unsigned_sign {s t : Text} (hs : IsSign s)
    (ht : HeadNot (fun c => c == '+' || c == '-') t) :
    unsigned (s ++ t) = (decide (s = ['-']), t) := by
  rcases hs with rfl | rfl | rfl
  · cases t with
    | nil => rfl
    | cons c t =>
      have hc : c ≠ '+' ∧ c ≠ '-' := by simpa using headNot_cons.1 ht
      rw [List.nil_append, unsigned]
      · rfl
      · simp [hc]
      · simp [hc]
  · rfl
  · rfl

theorem signed_decide (s : Text) (n : Nat) :
    signed (decide (s = ['-'])) n = withSign s n := by
  simp [signed, withSign]

theorem int_digits {s digits : Text} (hs : IsSign s) (hne : digits ≠ [])
    (hd : ∀ c ∈ digits, isDecimalDigit c) : Literal.int (s ++ digits) =
      if maxDecimalDigits < digits.length then .error digits.length
      else .ok (withSign s (decimalNumber digits)) := by
  have hclass : ∀ c ∈ digits, c ∉ ['+', '-', 'x', 'X'] := by
    intro c hc hmem
    simp only [List.mem_cons, List.not_mem_nil, or_false] at hmem
    rcases hmem with rfl | rfl | rfl | rfl <;> exact absurd (hd _ hc) (by decide)
  have hu := unsigned_sign hs (headNot_append_of_ne_nil (r := []) hne (by grind))
  rw [List.append_nil] at hu
  rw [Literal.int, hu]
  dsimp only
  split
  · simp at hclass
  · simp at hclass
  · rw [signed_decide]

theorem int_decimal {s digits : Text} {n : Nat} (hs : IsSign s)
    (hn : Numeral digitValue? 10 n digits) (hlen : digits.length ≤ maxDecimalDigits) :
    Literal.int (s ++ digits) = .ok (withSign s n) := by
  rw [int_digits hs hn.ne_nil hn.isSome, if_neg (by omega), decimalNumber, hn.ofDigits_eq]

theorem int_hexadecimal {s digits : Text} {x : Char} {n : Nat} (hs : IsSign s)
    (hx : x = 'x' ∨ x = 'X') (hn : Numeral hexValue? 16 n digits) :
    Literal.int (s ++ '0' :: x :: digits) = .ok (withSign s n) := by
  have hu := unsigned_sign (t := '0' :: x :: digits) hs (headNot_cons.2 rfl)
  rw [Literal.int, hu]
  rcases hx with rfl | rfl <;> simp [signed_decide, hexNumber, hn.ofDigits_eq]

theorem IntText.int_eq {n : Int} {t : Text} (h : IntText n t) : Literal.int t = .ok n := by
  cases h with
  | decimal hs hn hlen => exact int_decimal hs hn hlen
  | hexadecimal hs hx hn => exact int_hexadecimal hs hx hn

def controlEscapes : List (Char × CodePoint) :=
  [('n', 10), ('t', 9), ('r', 13), ('a', 7), ('b', 8), ('f', 12), ('v', 11)]

def escapeLetters : Text :=
  ['n', 't', 'r', 'a', 'b', 'f', 'v', 'u', 'U', 'x']

/-- What can stand between the quotes for a sequence of code points. Digits of an escape that has
no fixed number of them end where no further digit follows. -/
inductive StringText : Literal → Text → Prop
  | nil : StringText [] []
  | itself {c : Char} {s : Literal} {t : Text} (hq : c ≠ '"') (hb : c ≠ '\\') (hn : c ≠ '\n')
      (h : StringText s t) : StringText (.ofChar c :: s) (c :: t)
  | escaped {c : Char} {s : Literal} {t : Text} (hn : c ≠ '\n') (ho : isOctalDigit c = false)
      (hl : c ∉ escapeLetters) (h : StringText s t) : StringText (.ofChar c :: s) ('\\' :: c :: t)
  | control {c : Char} {p : CodePoint} {s : Literal} {t : Text} (hc : (c, p) ∈ controlEscapes)
      (h : StringText s t) : StringText (p :: s) ('\\' :: c :: t)
  | short {p : CodePoint} {digits t : Text} {s : Literal} (hp : Numeral hexValue? 16 p digits)
      (hlen : digits.length = 4) (h : StringText s t) :
      StringText (p :: s) ('\\' :: 'u' :: digits ++ t)
  | long {p : CodePoint} {digits t : Text} {s : Literal} (hp : Numeral hexValue? 16 p digits)
      (hlen : digits.length = 8) (h : StringText s t) :
      StringText (p :: s) ('\\' :: 'U' :: digits ++ t)
  | hexadecimal {p : CodePoint} {digits t : Text} {s : Literal}
      (hp : Numeral hexValue? 16 p digits) (hend : HeadNot isHexDigit t) (h : StringText s t) :
      StringText (p :: s) ('\\' :: 'x' :: digits ++ t)
  | octal {p : CodePoint} {digits t : Text} {s : Literal} (hp : Numeral hexValue? 8 p digits)
      (hd : ∀ c ∈ digits, isOctalDigit c) (hlen : digits.length ≤ 3)
      (hend : digits.length < 3 → HeadNot isOctalDigit t) (h : StringText s t) :
      StringText (p :: s) ('\\' :: digits ++ t)

theorem inside_append {l t : Text} (hl : ∀ c ∈ l, isHexDigit c) (h : Inside t) :
    Inside (l ++ t) := by
  induction l with
  | nil => exact h
  | cons c l ih =>
    have hc : ∀ d, isHexDigit d = false → c ≠ d := by
      rintro d hd rfl
      simp [hl c List.mem_cons_self] at hd
    exact .char (hc '"' rfl) (hc '\\' rfl) (hc '\n' rfl) (ih fun d hd => hl d (by simp [hd]))

theorem StringText.inside {s : Literal} {t : Text} (h : StringText s t) : Inside t := by
  induction h with
  | nil => exact .nil
  | itself hq hb hn _ ih => exact .char hq hb hn ih
  | escaped hn _ _ _ ih => exact .escape hn ih
  | control hc _ ih =>
    refine .escape ?_ ih
    rintro rfl
    simp [controlEscapes] at hc
  | short hp _ _ ih => exact .escape (by decide) (inside_append hp.isSome ih)
  | long hp _ _ ih => exact .escape (by decide) (inside_append hp.isSome ih)
  | hexadecimal hp _ _ ih => exact .escape (by decide) (inside_append hp.isSome ih)
  | @octal p digits t s hp _ _ _ _ ih =>
    obtain ⟨c, l, rfl⟩ := List.exists_cons_of_ne_nil hp.ne_nil
    refine .escape ?_ (inside_append (fun d hd => hp.isSome d (List.mem_cons_of_mem c hd)) ih)
    rintro rfl
    exact absurd (hp.isSome '\n' List.mem_cons_self) (by decide)

theorem decode?_escape {p : CodePoint} {t r : Text} (h : escape? t = some (p, r)) :
    decode? ('\\' :: t) = (decode? r).map (p :: ·) := by
  rw [decode?, if_pos rfl]
  split
  · next hn => simp [hn] at h
  · next p' r' hs =>
    rw [h] at hs
    cases hs
    rfl

theorem ofNat?_val (p : CodePoint) : CodePoint.ofNat? p = some p := by
  simp [CodePoint.ofNat?]

theorem exactHex?_append {k : Nat} {digits r : Text} (hd : ∀ c ∈ digits, isHexDigit c)
    (hlen : digits.length = k) : exactHex? k (digits ++ r) = some (digits, r) := by
  subst hlen
  simpa [exactHex?] using hd

theorem numbered_eq {p : CodePoint} {digits r : Text} (hp : Numeral hexValue? 16 p digits) :
    escape?.numbered (some (digits, r)) = some (p, r) := by
  simp [escape?.numbered, hexNumber, hp.ofDigits_eq, ofNat?_val]

theorem escape?_hexadecimal {p : CodePoint} {digits r : Text} (hp : Numeral hexValue? 16 p digits)
    (hend : HeadNot isHexDigit r) : escape? ('x' :: digits ++ r) = some (p, r) := by
  rw [List.cons_append, escape?, if_neg (by decide), if_neg (by decide), if_pos rfl,
    takeWhile_append (p := isHexDigit) hp.isSome hend,
    dropWhile_append (p := isHexDigit) hp.isSome hend]
  split
  · exact absurd rfl hp.ne_nil
  · exact numbered_eq hp

theorem octalRun_append {digits r : Text} (hd : ∀ c ∈ digits, isOctalDigit c)
    (hlen : digits.length ≤ 3) (hend : digits.length < 3 → HeadNot isOctalDigit r) :
    octalRun (digits ++ r) = (digits, r) := by
  have hrest : HeadNot isOctalDigit (r.take (3 - digits.length)) := by
    by_cases h3 : digits.length < 3
    · have hr := hend h3
      cases r with
      | nil => simpa using headNot_nil
      | cons c r =>
        obtain ⟨k, hk⟩ := Nat.exists_eq_add_of_lt h3
        rw [show 3 - digits.length = k + 1 by omega, List.take_succ_cons]
        exact headNot_cons.2 (headNot_cons.1 hr)
    · rw [show 3 - digits.length = 0 by omega, List.take_zero]
      exact headNot_nil
  rw [octalRun, List.take_append, List.take_of_length_le hlen, takeWhile_append hd hrest]
  simp

theorem escape?_octal {p : CodePoint} {digits r : Text} (hp : Numeral hexValue? 8 p digits)
    (hd : ∀ c ∈ digits, isOctalDigit c) (hlen : digits.length ≤ 3)
    (hend : digits.length < 3 → HeadNot isOctalDigit r) :
    escape? (digits ++ r) = some (p, r) := by
  have hrun := octalRun_append hd hlen hend
  obtain ⟨c, l, rfl⟩ := List.exists_cons_of_ne_nil hp.ne_nil
  have hc := hd c List.mem_cons_self
  have hletter : ∀ d, isOctalDigit d = false → c ≠ d := by
    rintro d h rfl
    simp [hc] at h
  rw [List.cons_append] at hrun ⊢
  rw [escape?, if_neg (hletter 'u' rfl), if_neg (hletter 'U' rfl), if_neg (hletter 'x' rfl),
    if_pos hc, hrun]
  dsimp only
  rw [hp.ofDigits_eq, ofNat?_val, Option.map_some]

theorem escape?_control {c : Char} {p : CodePoint} {r : Text} (hc : (c, p) ∈ controlEscapes) :
    escape? (c :: r) = some (p, r) := by
  simp only [controlEscapes, List.mem_cons, Prod.mk.injEq, List.not_mem_nil, or_false] at hc
  rcases hc with h | h | h | h | h | h | h <;> obtain ⟨rfl, rfl⟩ := h <;> rfl

theorem escape?_itself {c : Char} {r : Text} (ho : isOctalDigit c = false)
    (hl : c ∉ escapeLetters) : escape? (c :: r) = some (CodePoint.ofChar c, r) := by
  have hne : ∀ d ∈ escapeLetters, c ≠ d := by
    rintro d hd rfl
    exact hl hd
  have hsimple : simpleEscape c = CodePoint.ofChar c := by
    rw [simpleEscape] <;> exact hne _ (by decide)
  rw [escape?, if_neg (hne 'u' (by decide)), if_neg (hne 'U' (by decide)),
    if_neg (hne 'x' (by decide)), if_neg (by simp [ho]), hsimple]

theorem StringText.decode?_eq {s : Literal} {t : Text} (h : StringText s t) :
    decode? t = some s := by
  induction h with
  | nil => rw [decode?]
  | itself hq hb hn _ ih => rw [decode?, if_neg hb, ih, Option.map_some]
  | escaped hn ho hl _ ih => rw [decode?_escape (escape?_itself ho hl), ih, Option.map_some]
  | control hc _ ih => rw [decode?_escape (escape?_control hc), ih, Option.map_some]
  | @short p digits t s hp hlen _ ih =>
    have h : escape? ('u' :: (digits ++ t)) = some (p, t) := by
      rw [escape?, if_pos rfl, exactHex?_append hp.isSome hlen, numbered_eq hp]
    rw [List.cons_append, List.cons_append, decode?_escape h, ih, Option.map_some]
  | @long p digits t s hp hlen _ ih =>
    have h : escape? ('U' :: (digits ++ t)) = some (p, t) := by
      rw [escape?, if_neg (by decide), if_pos rfl, exactHex?_append hp.isSome hlen, numbered_eq hp]
    rw [List.cons_append, List.cons_append, decode?_escape h, ih, Option.map_some]
  | hexadecimal hp hend _ ih =>
    rw [List.cons_append, decode?_escape (escape?_hexadecimal hp hend), ih, Option.map_some]
  | octal hp hd hlen hend _ ih =>
    rw [List.cons_append, decode?_escape (escape?_octal hp hd hlen hend), ih, Option.map_some]

theorem StringText.ofToken?_eq {s : Literal} {t : Text} (h : StringText s t) :
    ofToken? ('"' :: t ++ ['"']) = some s := by
  simp [ofToken?, Literal.inside, h.decode?_eq]

end Literal

def slashed (c : Char) : Char :=
  if c = '\\' then '/' else c

/-- The path to the file of a logical name: backslashes may stand in it for slashes, and blanks
around it. -/
inductive IncludePath : Text → Text → Prop
  | mk {pre m post : Text} (hpre : ∀ c ∈ pre, isBlank c) (hpost : ∀ c ∈ post, isBlank c)
      (hne : m ≠ []) (hhead : HeadNot isBlank m) :
      IncludePath (m.map slashed) (pre ++ m ++ sourceExtension ++ post)

inductive IncludeText (name : Text) : Text → Prop
  | angle {a b t : Text} (ha : IsInline a) (hb : IsInline b) (hne : b ≠ []) (hin : Within '>' t)
      (ht : IncludePath name t) :
      IncludeText name ('#' :: a ++ "include".toList ++ b ++ '<' :: t ++ ['>'])
  | quote {a b t : Text} (ha : IsInline a) (hb : IsInline b) (hne : b ≠ []) (hin : Within '"' t)
      (ht : IncludePath name t) :
      IncludeText name ('#' :: a ++ "include".toList ++ b ++ '"' :: t ++ ['"'])

theorem IncludeText.fits {name t : Text} (h : IncludeText name t) : Fits ⟨.includeFile, t⟩ := by
  cases h with
  | angle ha hb hne hin => exact .includeAngle ha hb hne hin
  | quote ha hb hne hin => exact .includeQuote ha hb hne hin

theorem trimmed_append {pre m post : Text} (hpre : ∀ c ∈ pre, isBlank c)
    (hpost : ∀ c ∈ post, isBlank c) (hhead : HeadNot isBlank (m ++ post))
    (hlast : HeadNot isBlank m.reverse) : trimmed (pre ++ (m ++ post)) = m := by
  rw [trimmed, dropWhile_append hpre hhead, List.reverse_append,
    dropWhile_append (by simpa using hpost) hlast, List.reverse_reverse]

theorem includeName?_path {name t : Text} (h : IncludePath name t) :
    Grammar.includeName? (trimmed t) = some name := by
  obtain @⟨pre, m, post, hpre, hpost, hne, hhead⟩ := h
  have htrim : trimmed (pre ++ m ++ sourceExtension ++ post) = m ++ sourceExtension := by
    have := trimmed_append (m := m ++ sourceExtension) hpre hpost
      (by cases m with
        | nil => simp at hne
        | cons c m => exact headNot_cons.2 (headNot_cons.1 hhead))
      (by rw [List.reverse_append]; exact headNot_cons.2 rfl)
    simpa using this
  rw [htrim, Grammar.includeName?, stem?_eq_some_iff.2 ⟨hne, rfl⟩]
  rfl

theorem includeTarget_eq {a b t : Text} {opening closing : Char} (ha : IsInline a)
    (hb : IsInline b) (ho : opening = '<' ∨ opening = '"') :
    Grammar.includeTarget ('#' :: a ++ "include".toList ++ b ++ opening :: t ++ [closing]) =
      trimmed t := by
  have hblank : ∀ c, Pattern.isInlineBlank c → (c != '<' && c != '"') = true := by
    intro c hc
    simp only [Pattern.isInlineBlank, Bool.or_eq_true, beq_iff_eq] at hc
    rcases hc with rfl | rfl <;> rfl
  have hprefix : ∀ c ∈ '#' :: a ++ "include".toList ++ b, (c != '<' && c != '"') = true := by
    intro c hc
    simp only [List.cons_append, List.mem_cons, List.mem_append] at hc
    rcases hc with rfl | (hc | hc) | hc
    · rfl
    · exact hblank c (ha c hc)
    · have hall : "include".toList.all (fun c => c != '<' && c != '"') = true := rfl
      exact List.all_eq_true.1 hall c hc
    · exact hblank c (hb c hc)
  have hopen : HeadNot (fun c => c != '<' && c != '"') (opening :: t ++ [closing]) :=
    headNot_cons.2 (by rcases ho with rfl | rfl <;> rfl)
  rw [Grammar.includeTarget, List.append_assoc, dropWhile_append hprefix hopen]
  simp

theorem IncludeText.includeName_eq {name : Text} {t : Grammar.Tok .includeFile}
    (h : IncludeText name t.text) : Grammar.includeName t = .ok name := by
  have htarget : Grammar.includeName? (Grammar.includeTarget t.text) = some name := by
    generalize t.text = text at h
    cases h with
    | angle ha hb _ _ ht => rw [includeTarget_eq ha hb (.inl rfl), includeName?_path ht]
    | quote ha hb _ _ ht => rw [includeTarget_eq ha hb (.inr rfl), includeName?_path ht]
  simp only [Grammar.includeName, htarget]
  rfl

end SliceIdl
