import SliceIdl.Proofs.Source.Patterns

/-!
# The first piece of a written token

A token that is followed by nothing it would run into is the first piece of the text: no earlier
terminal fits what it starts with, and its own one stops where it ends.
-/

set_option autoImplicit false

namespace SliceIdl
open Text Pattern

def punctuation : Text :=
  [' ', '\t', '\x0c', '\r', '\n', '+', '-', '.', '"', '#', '/', ':', '?', '*', '[', ']', ',', ';',
    '\x7b', '\x7d', '(', ')', '=', '<', '>']

theorem candidates_of_not_mem {c : Char} (h : c ∉ punctuation) :
    candidates c =
      (if isDecimalDigit c then [(.token .float, .float), (.token .int, .int)] else []) ++
        if isIdentStart c then [(.token .ident, .ident)] else [] := by
  have h0 : isDecimalDigit c = false → c ≠ '0' := by
    rintro hd rfl
    exact absurd hd (by decide)
  simp only [punctuation, List.mem_cons, List.not_mem_nil, or_false, not_or] at h
  cases hd : isDecimalDigit c <;> cases hi : isIdentStart c <;>
  simp [candidates, terminals, starts, productive, blanks, many1, float, sign,
    oneOf, power, Pattern.digits, Pattern.char, Pattern.int, ident, Pattern.string, pragmaOnce,
    directive, includeFile, guardLine, lineComment, blockComment, h, h0, hd, hi]

theorem not_mem_punctuation {p : Char → Bool} {c : Char} (hp : punctuation.all fun d => !p d)
    (hc : p c) : c ∉ punctuation := by
  intro hmem
  simpa [hc] using List.all_eq_true.1 hp c hmem

theorem isAlpha_iff {c : Char} :
    c.isAlpha ↔ (65 ≤ c.toNat ∧ c.toNat ≤ 90) ∨ (97 ≤ c.toNat ∧ c.toNat ≤ 122) := by
  show (decide (c.val ≥ 'A'.val ∧ c.val ≤ 'Z'.val) ||
    (decide (c.val ≥ 'a'.val) && decide (c.val ≤ 'z'.val))) = true ↔ _
  simp only [Bool.or_eq_true, Bool.and_eq_true, decide_eq_true_eq, ge_iff_le,
    UInt32.le_iff_toNat_le]
  exact Iff.rfl

theorem isDigit_iff {c : Char} : c.isDigit ↔ 48 ≤ c.toNat ∧ c.toNat ≤ 57 := by
  show (decide (c.val ≥ '0'.val) && decide (c.val ≤ '9'.val)) = true ↔ _
  simp only [Bool.and_eq_true, decide_eq_true_eq, ge_iff_le, UInt32.le_iff_toNat_le]
  exact Iff.rfl

theorem isIdentRest_iff {c : Char} : isIdentRest c ↔ (c.isAlpha ∨ c.isDigit) ∨ c = '_' := by
  show (c.isAlpha || c.isDigit || c == '_') = true ↔ _
  simp

theorem not_isIdentStart_of_isDecimalDigit {c : Char} (h : isDecimalDigit c) :
    isIdentStart c = false := by
  rw [Bool.eq_false_iff]
  intro hi
  have hascii : c.toNat < 128 ∧ ¬(48 ≤ c.toNat ∧ c.toNat ≤ 57) := by
    simp only [isIdentStart, Bool.or_eq_true, isAlpha_iff, beq_iff_eq] at hi
    rcases hi with hi | rfl
    · omega
    · decide
  simp [isDecimalDigit, digitValue?, hascii] at h

theorem candidates_identStart {c : Char} (h : isIdentStart c) :
    candidates c = [(.token .ident, .ident)] := by
  have hd : isDecimalDigit c = false := by
    rw [Bool.eq_false_iff]
    intro hd
    simp [not_isIdentStart_of_isDecimalDigit hd] at h
  rw [candidates_of_not_mem (not_mem_punctuation (by decide) h), hd, h]
  rfl

theorem candidates_digit {c : Char} (h : isDecimalDigit c) :
    candidates c = [(.token .float, .float), (.token .int, .int)] := by
  rw [candidates_of_not_mem (not_mem_punctuation (by decide) h), h,
    not_isIdentStart_of_isDecimalDigit h]
  rfl

namespace Lexeme

variable {c : Char} {r s t digits : Text}

theorem of_ofWord {p : TokenKind → Prop} (t : Text) (hident : p .ident)
    (hkeywords : ∀ k ∈ TokenKind.keywords, p k.2) : p (.ofWord t) := by
  rw [TokenKind.ofWord]
  cases hl : TokenKind.keywords.lookup t with
  | none => exact hident
  | some kind =>
    obtain ⟨l₁, l₂, h, -⟩ := List.lookup_eq_some_iff.1 hl
    exact hkeywords (t, kind) (by simp [h])

theorem runsInto_ofWord (t : Text) : runsInto (.ofWord t) = isIdentRest :=
  of_ofWord (p := fun k => runsInto k = isIdentRest) t rfl (by simp [TokenKind.keywords, runsInto])

theorem first?_word (h : IsWord t) (hr : HeadNot isIdentRest r) :
    Piece.first? (t ++ r) = some (⟨.token (.ofWord t), t⟩, r) := by
  obtain ⟨c, cs, rfl, hc, hcs⟩ := h
  refine Piece.first?_of_takes [] [] (candidates_identStart hc) (by simp) ?_
  exact (takes_one hc).seq (takes_run hcs hr)

theorem candidates_mark {kind : TokenKind} (h : (kind, t) ∈ marks) :
    kind ≠ .ident ∧ ∃ c l p, t = c :: l ∧ candidates c = [(.token kind, p)] ∧
      ∀ r, p.Takes (c :: l) r := by
  simp only [marks, List.mem_cons, Prod.mk.injEq, List.not_mem_nil, or_false] at h
  rcases h with h | h | h | h | h | h | h | h | h | h | h | h | h | h <;> obtain ⟨rfl, rfl⟩ := h
  · exact ⟨by simp, _, _, _, rfl, rfl, fun _ => takes_word⟩
  all_goals exact ⟨by simp, _, _, _, rfl, rfl, fun _ => takes_char⟩

theorem first?_token {kind : TokenKind} {l : Text} {p : Pattern} (hk : kind ≠ .ident)
    (refusing rest : List (PieceKind × Pattern))
    (hc : candidates c = refusing ++ (.token kind, p) :: rest)
    (hn : ∀ k ∈ refusing, k.2.split? (c :: l ++ r) = none) (hp : p.Takes (c :: l) r) :
    Piece.first? (c :: l ++ r) = some (⟨.token kind, c :: l⟩, r) := by
  rw [Piece.first?_of_takes refusing rest hc hn hp, PieceKind.refined, if_neg (by simpa using hk)]

theorem first?_mark {kind : TokenKind} (h : (kind, t) ∈ marks) :
    Piece.first? (t ++ r) = some (⟨.token kind, t⟩, r) := by
  obtain ⟨hne, c, l, p, rfl, hc, hp⟩ := candidates_mark h
  exact first?_token hne [] [] hc (by simp) (hp r)

theorem takes_sign (h : IsSign s) (ht : HeadNot (fun c => c == '+' || c == '-') t) :
    sign.Takes s t := by
  rcases h with rfl | rfl | rfl
  · exact takes_maybe_nil (one_eq_none (ht.mono (by simp)))
  · exact (takes_one (by decide)).maybe
  · exact (takes_one (by decide)).maybe

theorem float_eq_none (hs : IsSign s) (hd : ∀ c ∈ digits, isDecimalDigit c) (hne : digits ≠ [])
    (hr : HeadNot (fun c => isDecimalDigit c || c == '.' || c == 'e' || c == 'E') r) :
    float.split? (s ++ (digits ++ r)) = none := by
  have hclass : ∀ c, (c = '+' ∨ c = '-' ∨ c = '.') → c ∉ digits := by
    rintro c (rfl | rfl | rfl) hc <;> exact absurd (hd _ hc) (by decide)
  have hdigits : Pattern.digits.Takes digits r := takes_many1 hd hne (hr.mono (by simp_all))
  have hsign : sign.Takes s (digits ++ r) :=
    takes_sign hs (headNot_append_of_ne_nil hne (by grind))
  have hpoint : (Pattern.char '.').split? (digits ++ r) = none :=
    one_eq_none (headNot_append_of_ne_nil hne (by grind))
  refine hsign.seq_eq_none (either_eq_none (seq_eq_none_left (either_eq_none ?_ ?_)) ?_)
  · exact hdigits.seq_eq_none (seq_eq_none_left (one_eq_none (hr.mono (by simp_all))))
  · exact seq_eq_none_left hpoint
  · exact hdigits.seq_eq_none
      (seq_eq_none_left (seq_eq_none_left (one_eq_none (hr.mono (by simp_all)))))

theorem first?_signed (hs : IsSign s) (hc : isDecimalDigit c)
    (hfloat : float.split? (s ++ c :: t ++ r) = none) (hint : Pattern.int.Takes (s ++ c :: t) r) :
    Piece.first? (s ++ c :: t ++ r) = some (⟨.token .int, s ++ c :: t⟩, r) := by
  -- Behind a sign stands a digit, so that only the terminals for numbers are candidates.
  have hcands : ∃ d l, s ++ c :: t = d :: l ∧
      candidates d = [(.token .float, .float)] ++ (.token .int, .int) :: [] := by
    rcases hs with rfl | rfl | rfl
    · exact ⟨c, t, rfl, candidates_digit hc⟩
    · exact ⟨'+', c :: t, rfl, rfl⟩
    · exact ⟨'-', c :: t, rfl, rfl⟩
  obtain ⟨d, l, hdl, hd⟩ := hcands
  rw [hdl] at hfloat hint ⊢
  exact first?_token (by simp) _ _ hd (by simpa using hfloat) hint

theorem isIdentRest_of_isHexDigit (h : isHexDigit c) : isIdentRest c := by
  have hc : ('0' ≤ c ∧ c ≤ '9') ∨ ('a' ≤ c ∧ c ≤ 'f') ∨ ('A' ≤ c ∧ c ≤ 'F') := by
    rw [isHexDigit, hexValue?] at h
    split at h
    · next hc => exact .inl hc
    split at h
    · next hc => exact .inr (.inl hc)
    split at h
    · next hc => exact .inr (.inr hc)
    · cases h
  simp only [Char.le_def, UInt32.le_iff_toNat_le] at hc
  have hrange : (48 ≤ c.toNat ∧ c.toNat ≤ 57) ∨ (97 ≤ c.toNat ∧ c.toNat ≤ 102) ∨
      (65 ≤ c.toNat ∧ c.toNat ≤ 70) := hc
  rw [isIdentRest_iff, isAlpha_iff, isDigit_iff]
  omega

theorem first?_decimal (hs : IsSign s) (hne : digits ≠ []) (hd : ∀ c ∈ digits, isDecimalDigit c)
    (hr : HeadNot (runsInto .int) r) :
    Piece.first? (s ++ digits ++ r) = some (⟨.token .int, s ++ digits⟩, r) := by
  have hfloat : float.split? (s ++ (digits ++ r)) = none := by
    refine float_eq_none hs hd hne (hr.mono fun c hc => ?_)
    simp only [Bool.or_eq_true, beq_iff_eq] at hc
    rcases hc with ((hc | rfl) | rfl) | rfl
    · simp [runsInto, hc]
    all_goals rfl
  have hclass : ∀ c ∈ digits, c ∉ ['+', '-', 'x', 'X'] := by
    intro c hc hmem
    simp only [List.mem_cons, List.not_mem_nil, or_false] at hmem
    rcases hmem with rfl | rfl | rfl | rfl <;> exact absurd (hd _ hc) (by decide)
  have hsign : sign.Takes s (digits ++ r) :=
    takes_sign hs (headNot_append_of_ne_nil hne (by grind))
  obtain ⟨c, t, rfl⟩ := List.exists_cons_of_ne_nil hne
  -- Behind a zero there is no `x`, whether more digits follow or not.
  have hhex : ((Pattern.char '0').seq ((oneOf ['x', 'X']).seq (many1 isHexDigit))).split?
      (c :: t ++ r) = none := by
    by_cases hc : c = '0'
    · subst hc
      refine Takes.seq_eq_none (l := ['0']) takes_char (seq_eq_none_left (one_eq_none ?_))
      refine .append (by grind) (hr.mono fun c hc => ?_)
      rcases (by simpa using hc : c = 'x' ∨ c = 'X') with rfl | rfl <;> rfl
    · exact seq_eq_none_left (one_eq_none (headNot_cons.2 (by simpa using hc)))
  refine first?_signed hs (hd c List.mem_cons_self) (by simpa using hfloat) (hsign.seq ?_)
  exact .right hhex (takes_many1 hd hne (hr.mono (by simp_all [runsInto])))

theorem first?_hexadecimal {x : Char} (hs : IsSign s) (hx : x = 'x' ∨ x = 'X') (hne : digits ≠ [])
    (hd : ∀ c ∈ digits, isHexDigit c) (hr : HeadNot (runsInto .int) r) :
    Piece.first? (s ++ '0' :: x :: digits ++ r) =
      some (⟨.token .int, s ++ '0' :: x :: digits⟩, r) := by
  have hzero : isDecimalDigit '0' = true := rfl
  have hfloat : float.split? (s ++ (['0'] ++ (x :: digits ++ r))) = none :=
    float_eq_none hs (by simpa using hzero) (by simp)
      (headNot_cons.2 (by rcases hx with rfl | rfl <;> decide))
  have hsign : sign.Takes s ('0' :: x :: digits ++ r) := takes_sign hs (headNot_cons.2 (by decide))
  refine first?_signed hs (by decide) (by simpa using hfloat) (hsign.seq (.left ?_))
  refine Takes.seq (l := ['0']) takes_char (Takes.seq (l := [x]) (takes_one ?_) ?_)
  · rcases hx with rfl | rfl <;> decide
  · exact takes_many1 hd hne
      (hr.mono fun c hc => by simp [runsInto, isIdentRest_of_isHexDigit hc])

theorem literalSplit_inside (h : Inside t) : literalSplit (t ++ '"' :: r) = (t, '"' :: r) := by
  induction h with
  | nil => simp [literalSplit]
  | char hq hb hn _ ih =>
    rw [List.cons_append, literalSplit]
    · simp [hq, hb, hn, ih]
    · simp [hb]
  | escape hn _ ih => simp [literalSplit, hn, ih]

theorem first?_string (h : Inside t) :
    Piece.first? ('"' :: t ++ ['"'] ++ r) = some (⟨.token .string, '"' :: t ++ ['"']⟩, r) := by
  refine first?_token (by simp) [] [] rfl (by simp) ?_
  refine Takes.seq (l := ['"']) takes_char (Takes.seq ?_ takes_char)
  simp [Takes, split?, literalSplit_inside h]

theorem takes_directive {a : Text} {d : Pattern} (ha : IsInline a)
    (ht : HeadNot isInlineBlank (t ++ r)) (hd : d.Takes t r) :
    (directive d).Takes ('#' :: (a ++ t)) r :=
  Takes.seq (l := ['#']) takes_char ((takes_run ha ht).seq hd)

theorem directive_eq_none {a : Text} {d : Pattern} (ha : IsInline a) (ht : HeadNot isInlineBlank t)
    (hd : d.split? t = none) : (directive d).split? ('#' :: (a ++ t)) = none :=
  Takes.seq_eq_none (l := ['#']) takes_char ((takes_run ha ht).seq_eq_none hd)

theorem candidates_hash : candidates '#' =
    [(.token .pragmaOnce, .pragmaOnce), (.token .includeFile, .includeFile),
      (.layout .guardLine, .guardLine)] := rfl

theorem first?_pragmaOnce {a b : Text} (ha : IsInline a) (hb : IsInline b) (hne : b ≠ []) :
    Piece.first? ('#' :: a ++ "pragma".toList ++ b ++ "once".toList ++ r) =
      some (⟨.token .pragmaOnce, '#' :: a ++ "pragma".toList ++ b ++ "once".toList⟩, r) := by
  have hp : pragmaOnce.Takes ('#' :: (a ++ ("pragma".toList ++ (b ++ "once".toList)))) r := by
    refine takes_directive ha (headNot_cons.2 rfl) (takes_word.seq (Takes.seq ?_ takes_word))
    exact takes_many1 hb hne (headNot_cons.2 rfl)
  simpa only [List.append_assoc, List.cons_append] using
    first?_token (by simp) [] _ candidates_hash (by simp) hp

theorem takes_delimited {close : Char} (h : Within close t) :
    (delimited close).Takes (t ++ [close]) r :=
  (takes_run (fun c hc => by simpa using h c hc) (headNot_cons.2 (by simp))).seq takes_char

def includePath : Pattern :=
  either (seq (Pattern.char '<') (delimited '>')) (seq (Pattern.char '"') (delimited '"'))

theorem takes_angled (h : Within '>' t) : includePath.Takes ('<' :: t ++ ['>']) r :=
  .left (Takes.seq (l := ['<']) takes_char (takes_delimited h))

theorem takes_quoted (h : Within '"' t) : includePath.Takes ('"' :: t ++ ['"']) r :=
  .right (seq_eq_none_left (one_eq_none (headNot_cons.2 rfl)))
    (Takes.seq (l := ['"']) takes_char (takes_delimited h))

theorem first?_include {a b t : Text} (ha : IsInline a) (hb : IsInline b) (hne : b ≠ [])
    (ht : includePath.Takes t r) (hh : HeadNot isInlineBlank (t ++ r)) :
    Piece.first? ('#' :: a ++ "include".toList ++ b ++ t ++ r) =
      some (⟨.token .includeFile, '#' :: a ++ "include".toList ++ b ++ t⟩, r) := by
  have hn : pragmaOnce.split? ('#' :: (a ++ ("include".toList ++ (b ++ (t ++ r))))) = none :=
    directive_eq_none ha (headNot_cons.2 rfl) (seq_eq_none_left rfl)
  have hp : includeFile.Takes ('#' :: (a ++ ("include".toList ++ (b ++ t)))) r := by
    refine takes_directive ha (headNot_cons.2 rfl) (takes_word.seq (Takes.seq ?_ ht))
    exact takes_many1 hb hne hh
  simpa only [List.append_assoc, List.cons_append] using
    first?_token (by simp) [_] _ candidates_hash (by simpa using hn) hp

theorem Fits.first? {l : Lexeme} (h : l.Fits) (hr : HeadNot (runsInto l.kind) r) :
    Piece.first? (l.text ++ r) = some (⟨.token l.kind, l.text⟩, r) := by
  cases h with
  | word h => exact first?_word h (by rwa [runsInto_ofWord] at hr)
  | mark h => exact first?_mark h
  | decimal hs hne hd => exact first?_decimal hs hne hd hr
  | hexadecimal hs hx hne hd => exact first?_hexadecimal hs hx hne hd hr
  | string h => exact first?_string h
  | pragmaOnce ha hb hne => exact first?_pragmaOnce ha hb hne
  | includeAngle ha hb hne ht =>
    simpa using first?_include ha hb hne (takes_angled ht) (headNot_cons.2 rfl)
  | includeQuote ha hb hne ht =>
    simpa using first?_include ha hb hne (takes_quoted ht) (headNot_cons.2 rfl)

end Lexeme

end SliceIdl
