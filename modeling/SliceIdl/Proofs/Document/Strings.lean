import SliceIdl.Proofs.Document.RoundTrip
import SliceIdl.Proofs.Source.Joining

/-!
# Strings in every spelling

A code point can be spelled in several ways in a string, and the ways can be mixed freely: where one
spelling ends does not depend on what the next one is, but for the digits behind an `x`, which take
in all further digits. However a string is spelled, its literal is one token wherever it stands, and
the string is read back from it.
-/

set_option autoImplicit false

namespace SliceIdl
open Text Lexeme

namespace Literal

variable {s : Literal} {t : Text}

inductive PointText : CodePoint → Text → Prop
  | itself {c : Char} (hq : c ≠ '"') (hb : c ≠ '\\') (hn : c ≠ '\n') : PointText (.ofChar c) [c]
  | escaped {c : Char} (hn : c ≠ '\n') (ho : isOctalDigit c = false) (hl : c ∉ escapeLetters) :
      PointText (.ofChar c) ['\\', c]
  | control {c : Char} {p : CodePoint} (hc : (c, p) ∈ controlEscapes) : PointText p ['\\', c]
  | short {p : CodePoint} {digits : Text} (hp : Numeral hexValue? 16 p digits)
      (hlen : digits.length = 4) : PointText p ('\\' :: 'u' :: digits)
  | long {p : CodePoint} {digits : Text} (hp : Numeral hexValue? 16 p digits)
      (hlen : digits.length = 8) : PointText p ('\\' :: 'U' :: digits)
  | octal {p : CodePoint} {digits : Text} (hp : Numeral hexValue? 8 p digits)
      (hd : ∀ c ∈ digits, isOctalDigit c) (hlen : digits.length = 3) :
      PointText p ('\\' :: digits)
  | hexadecimal {p : CodePoint} {digits : Text} (hp : Numeral hexValue? 16 p digits) :
      PointText p ('\\' :: 'x' :: digits)

/-- The second spelling does not add a digit to the first one. -/
def Separated (u v : Text) : Prop :=
  ['\\', 'x'] <+: u → HeadNot isHexDigit v

instance : DecidableRel Separated := fun u v =>
  inferInstanceAs (Decidable (['\\', 'x'] <+: u → v.head?.all (fun c => !isHexDigit c) = true))

/-- The text is a literal in which every code point of the string has one of its spellings. -/
def Quotes (s : Literal) (t : Text) : Prop :=
  ∃ us, List.Forall₂ PointText s us ∧ us.IsChain Separated ∧ t = '"' :: us.flatten ++ ['"']

theorem PointText.ne_nil {p : CodePoint} {u : Text} (h : PointText p u) : u ≠ [] := by
  cases h <;> simp

theorem stringText_flatten {us : List Text} (hs : List.Forall₂ PointText s us)
    (hu : us.IsChain Separated) : StringText s us.flatten := by
  induction hs with
  | nil => exact .nil
  | @cons p u s us hp hs ih =>
    have ih := ih hu.tail
    rw [List.flatten_cons]
    cases hp with
    | itself hq hb hn => exact .itself hq hb hn ih
    | escaped hn ho hl => exact .escaped hn ho hl ih
    | control hc => exact .control hc ih
    | short hp hlen => exact .short hp hlen ih
    | long hp hlen => exact .long hp hlen ih
    | octal hp hd hlen => exact .octal hp hd hlen.le (fun h => absurd hlen h.ne) ih
    | hexadecimal hp =>
      -- The only spelling without an end of its own: the next one must not go on with a digit.
      have hend : HeadNot isHexDigit us.flatten := by
        cases hs with
        | nil => exact headNot_nil
        | @cons q v s us hq hs =>
          have hsep := (List.isChain_cons_cons.1 hu).1 ⟨_, rfl⟩
          obtain ⟨c, v, rfl⟩ := List.exists_cons_of_ne_nil hq.ne_nil
          exact headNot_cons.2 (headNot_cons.1 hsep)
      exact .hexadecimal hp hend ih

namespace Quotes

variable {pos : Position}

theorem exists_stringText (h : Quotes s t) : ∃ u, StringText s u ∧ t = '"' :: u ++ ['"'] := by
  obtain ⟨us, hs, hu, rfl⟩ := h
  exact ⟨us.flatten, stringText_flatten hs hu, rfl⟩

theorem fits (h : Quotes s t) : Fits ⟨.string, t⟩ := by
  obtain ⟨u, hu, rfl⟩ := h.exists_stringText
  exact .string hu.inside

theorem first? (h : Quotes s t) (r : Text) :
    Piece.first? (t ++ r) = some (⟨.token .string, t⟩, r) :=
  h.fits.first? (by cases r <;> rfl)

theorem ofText (h : Quotes s t) : Scan.ofText t = ⟨[⟨.string, t, .start⟩], none⟩ := by
  have hcuts : CutsAt .start (t ++ []) [⟨.string, t, .start⟩] :=
    cutsAt_of_token (h.first? []) cutsAt_nil
  rw [List.append_nil, cutsAt_iff] at hcuts
  exact hcuts

theorem stringValue (h : Quotes s t) : Grammar.stringValue ⟨t, pos⟩ = .ok s := by
  obtain ⟨u, hu, rfl⟩ := h.exists_stringText
  simp only [Grammar.stringValue, hu.ofToken?_eq]
  rfl

theorem constant (h : Quotes s t) :
    (Grammar.ConstValue.string ⟨t, pos⟩).build = .ok (.string s) := by
  rw [Grammar.ConstValue.build, h.stringValue]
  rfl

theorem metadata (h : Quotes s t) {m : Grammar.Metadata}
    (hm : ∀ u ∈ m.strings.toList, u.text = t) :
    m.build = .ok (m.strings.toList.map fun _ => s) := by
  refine mapM_eq_ok (List.forall₂_map_left_iff.2 (List.forall₂_same.2 fun u hu => ?_))
  obtain ⟨text, pos⟩ := u
  obtain rfl : text = t := hm _ hu
  exact h.stringValue

end Quotes

end Literal

open Literal

def stringDocument (s : Literal) : Document :=
  ⟨false, [], [], [.mk ['M'] .start
    [.const ⟨['S'], ⟨"string".toList, false, false⟩, .string s, .start, [], []⟩] [s]]⟩

def stringLexemes (t : Text) : List Lexeme :=
  [⟨.leftBracket, ['[']⟩, ⟨.string, t⟩, ⟨.rightBracket, [']']⟩, ⟨.kwModule, "module".toList⟩,
    ⟨.ident, ['M']⟩, ⟨.leftBrace, ['\x7b']⟩, ⟨.kwConst, "const".toList⟩,
    ⟨.ident, "string".toList⟩, ⟨.ident, ['S']⟩, ⟨.equal, ['=']⟩, ⟨.string, t⟩,
    ⟨.semicolon, [';']⟩, ⟨.rightBrace, ['\x7d']⟩]

theorem isIdentifier_string : IsIdentifier "string".toList :=
  ⟨⟨'s', "tring".toList, rfl, rfl, List.all_eq_true.1 rfl⟩, rfl⟩

theorem stringDocument_wellFormed (s : Literal) : (stringDocument s).WellFormed := by
  have hM : IsIdentifier ['M'] := isIdentifier_letter rfl rfl
  refine ⟨List.nodup_nil, by simp [stringDocument], fun m hm => ?_⟩
  obtain rfl := List.mem_singleton.1 hm
  exact ⟨hM.isScopedName,
    ⟨isIdentifier_letter rfl rfl, isIdentifier_string.isScopedName, trivial⟩, trivial⟩

open Spelling in
theorem stringLexemes_mem {s : Literal} {t : Text} (h : Quotes s t) :
    stringLexemes t ∈ (stringDocument s).spelling := by
  have nil : ([] : List Lexeme) ∈ (1 : Spellings) := rfl
  have marked : ∀ (kind : TokenKind) (u : Text), (kind, u) ∈ marks →
      ([⟨kind, u⟩] : List Lexeme) ∈ mark kind := fun _ u hu => ⟨u, hu, rfl⟩
  have word : ∀ (kind : TokenKind) (u : Text), (u, kind) ∈ TokenKind.keywords →
      ([⟨kind, u⟩] : List Lexeme) ∈ keyword kind := fun _ u hu => ⟨u, hu, rfl⟩
  have hstring : ([⟨.string, t⟩] : List Lexeme) ∈ string s := ⟨t, h.exists_stringText, rfl⟩
  have hmetadata : [⟨.leftBracket, ['[']⟩, ⟨.string, t⟩, ⟨.rightBracket, [']']⟩] ∈
      bracketed [s] :=
    Language.append_mem_mul (Language.append_mem_mul (marked .leftBracket _ (by decide))
      (Language.append_mem_mul hstring nil)) (marked .rightBracket _ (by decide))
  have hconst : [⟨.kwConst, "const".toList⟩, ⟨.ident, "string".toList⟩, ⟨.ident, ['S']⟩,
      ⟨.equal, ['=']⟩, ⟨.string, t⟩, ⟨.semicolon, [';']⟩] ∈
      Const.spelling ⟨['S'], ⟨"string".toList, false, false⟩, .string s, .start, [], []⟩ := by
    have hkeyword := Language.append_mem_mul nil (word .kwConst "const".toList (by decide))
    have htype : [⟨.ident, "string".toList⟩] ∈
        TypeRef.spelling ⟨"string".toList, false, false⟩ :=
      Language.append_mem_mul (Language.append_mem_mul isIdentifier_string.mem_scopedName nil) nil
    have hname : ([⟨.ident, ['S']⟩] : List Lexeme) ∈ ident ['S'] := ⟨_, rfl, rfl⟩
    have hvalue : [⟨.equal, ['=']⟩, ⟨.string, t⟩] ∈ (ConstValue.string s).initialSpelling :=
      Language.append_mem_mul (marked .equal _ (by decide)) hstring
    exact Language.append_mem_mul (Language.append_mem_mul (Language.append_mem_mul
      (Language.append_mem_mul hkeyword (Language.append_mem_mul nil htype)) hname) hvalue)
        (marked .semicolon _ (by decide))
  have hM : ([⟨.ident, ['M']⟩] : List Lexeme) ∈ scopedName ['M'] :=
    IsIdentifier.mem_scopedName (isIdentifier_letter rfl rfl)
  have hnone : ([] : List Lexeme) ∈ 1 + mark .semicolon := .inl nil
  have hbody := Language.append_mem_mul (Language.append_mem_mul (Language.append_mem_mul
    (marked .leftBrace ['\x7b'] (by decide)) (Language.append_mem_mul hconst nil))
      (marked .rightBrace ['\x7d'] (by decide))) hnone
  have hmodule := Language.append_mem_mul (Language.append_mem_mul (Language.append_mem_mul
    hmetadata (word .kwModule "module".toList (by decide))) hM) hbody
  exact ⟨[.module _], .module _ .nil, Language.append_mem_mul hmodule nil⟩

/-- However a string is spelled, its literal is one token, alone and in front of any other text,
and the string is its value as a constant and as metadata, and in any layout of a whole module. -/
theorem Document.parse_quoted {s : Literal} {t : Text} (h : Quotes s t) :
    Scan.ofText t = ⟨[⟨.string, t, .start⟩], none⟩ ∧
    (∀ r, Piece.first? (t ++ r) = some (⟨.token .string, t⟩, r)) ∧
    (∀ pos, (Grammar.ConstValue.string ⟨t, pos⟩).build = .ok (.string s)) ∧
    (∀ m : Grammar.Metadata, (∀ t' ∈ m.strings.toList, t'.text = t) →
      m.build = .ok (m.strings.toList.map fun _ => s)) ∧
    ∀ text, Written (stringLexemes t) text →
      ∃ d, Document.parse text = .ok d ∧ d.unlocated = (stringDocument s).unlocated := by
  refine ⟨h.ofText, h.first?, fun pos => h.constant, fun m hm => h.metadata hm, fun text ht => ?_⟩
  have hspelled : (stringDocument s).Spelled text := ⟨_, stringLexemes_mem h, ht⟩
  exact hspelled.parse (stringDocument_wellFormed s)

theorem stringLexemes_fits {s : Literal} {t : Text} (h : Quotes s t) :
    ∀ x ∈ stringLexemes t, x.Fits := by
  have hword : ∀ c cs, Pattern.isIdentStart c → cs.all Pattern.isIdentRest →
      Fits ⟨.ofWord (c :: cs), c :: cs⟩ := fun c cs hc hcs =>
    .word ⟨c, cs, rfl, hc, by simpa using hcs⟩
  simp only [stringLexemes, List.forall_mem_cons]
  exact ⟨.mark (by decide), h.fits, .mark (by decide), hword 'm' "odule".toList rfl rfl,
    hword 'M' [] rfl rfl, .mark (by decide), hword 'c' "onst".toList rfl rfl,
    hword 's' "tring".toList rfl rfl, hword 'S' [] rfl rfl, .mark (by decide), h.fits,
    .mark (by decide), .mark (by decide), by simp⟩

/-- A backslash in front of a `u`, one hexadecimal escape in front of another, an octal one with
three digits in front of a fourth, and a line break; the second escape is half of a surrogate
pair. -/
def mixedLiteral : Text :=
  "\"\\\\u\\x00E9\\ud83d\\0617\\n\"".toList

theorem quotes_mixedLiteral : Quotes [0x5c, 0x75, 0xe9, 0xd83d, 0x31, 0x37, 0x0a] mixedLiteral := by
  have hsmall : Numeral hexValue? 16 0xe9 "00E9".toList :=
    .snoc (d := 9) (.snoc (d := 14) (.snoc (d := 0) (.digit (d := 0) rfl) rfl) rfl) rfl
  have hsurrogate : Numeral hexValue? 16 0xd83d "d83d".toList :=
    .snoc (d := 13) (.snoc (d := 3) (.snoc (d := 8) (.digit (d := 13) rfl) rfl) rfl) rfl
  have hoctal : Numeral hexValue? 8 0x31 "061".toList :=
    .snoc (d := 1) (.snoc (d := 6) (.digit (d := 0) rfl) rfl) rfl
  refine ⟨[['\\', '\\'], ['u'], "\\x00E9".toList, "\\ud83d".toList, "\\061".toList, ['7'],
    ['\\', 'n']], ?_, by decide, rfl⟩
  exact .cons (.escaped (c := '\\') (by decide) rfl (by decide))
    (.cons (.itself (c := 'u') (by decide) (by decide) (by decide))
    (.cons (.hexadecimal hsmall) (.cons (.short hsurrogate rfl)
    (.cons (.octal hoctal (List.all_eq_true.1 rfl) rfl)
    (.cons (.itself (c := '7') (by decide) (by decide) (by decide))
    (.cons (.control (by decide)) .nil))))))

theorem Document.parse_quoted_mixed :
    Quotes [0x5c, 0x75, 0xe9, 0xd83d, 0x31, 0x37, 0x0a] mixedLiteral ∧
    ∃ d, Document.parse (" [ ".toList ++ mixedLiteral ++ " ] module M \x7b const string S = ".toList
        ++ mixedLiteral ++ " ; \x7d".toList) = .ok d ∧
      d.unlocated = (stringDocument [0x5c, 0x75, 0xe9, 0xd83d, 0x31, 0x37, 0x0a]).unlocated :=
  ⟨quotes_mixedLiteral, (parse_quoted quotes_mixedLiteral).2.2.2.2 _
    (written_of_fits (stringLexemes_fits quotes_mixedLiteral))⟩

end SliceIdl
