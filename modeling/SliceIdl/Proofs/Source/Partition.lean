import SliceIdl.Proofs.Source.TokenTexts

/-!
# How a text is cut up

Behind each piece cutting up goes on as if the text began there. So the pieces and what is left
behind them make up the text, and what is left starts at the first place that is come to where no
terminal matches.

A word is taken with all characters that belong to it, so no keyword is cut off from a longer
identifier. Words are read from where pieces start: what a number or a directive such as
`#pragma once` ends in starts no word, and a keyword may stand right behind it.
-/

set_option autoImplicit false

namespace SliceIdl
open Text Pattern Lexeme

variable {source next l r t w : Text} {before after outer inner : List Piece} {p q : Piece}
  {k : TokenKind} {c : Char}

theorem pieces_behind (h : (pieces source).1 = before ++ after) :
    pieces (coveredText after ++ (pieces source).2) = (after, (pieces source).2) := by
  induction before generalizing source with
  | nil =>
    obtain rfl : (pieces source).1 = after := h
    rw [pieces_append]
  | cons p before ih =>
    cases hfirst : Piece.first? source with
    | none =>
      rw [pieces_of_none hfirst] at h
      cases h
    | some s =>
      rw [pieces_of_first? hfirst] at h ⊢
      exact ih (List.cons.inj h).2

def Unmatched (t : Text) : Prop :=
  ∀ k ∈ terminals, k.2.split? t = none

theorem unmatched_iff (h : (pieces source).1 = before ++ after) :
    Unmatched (coveredText after ++ (pieces source).2) ↔ after = [] := by
  rw [Unmatched, ← Piece.first?_eq_none_iff]
  constructor
  · intro hnone
    have hpieces := pieces_behind h
    rw [pieces_of_none hnone] at hpieces
    exact (congrArg Prod.fst hpieces).symm
  · rintro rfl
    exact first?_rest source

/-- Behind the pieces in front of it, a piece is cut off from what comes next. -/
def CutsOff (source : Text) (before : List Piece) (p : Piece) (next : Text) : Prop :=
  ∃ after, (pieces source).1 = before ++ p :: after ∧ next = coveredText after ++ (pieces source).2

namespace CutsOff

theorem first? (h : CutsOff source before p next) :
    Piece.first? (p.text ++ next) = some (p, next) := by
  obtain ⟨after, hps, rfl⟩ := h
  have hcovered : coveredText (p :: after) ++ (pieces source).2 =
      p.text ++ (coveredText after ++ (pieces source).2) := List.append_assoc ..
  have hpieces := pieces_behind hps
  rw [hcovered] at hpieces
  cases hfirst : Piece.first? (p.text ++ (coveredText after ++ (pieces source).2)) with
  | none =>
    rw [pieces_of_none hfirst] at hpieces
    cases hpieces
  | some s =>
    obtain ⟨q, r⟩ := s
    have htext := Piece.first?_append hfirst
    rw [pieces_of_first? hfirst] at hpieces
    obtain ⟨rfl, -⟩ := List.cons.inj (congrArg Prod.fst hpieces)
    rw [List.append_cancel_left htext]

theorem mem (h : CutsOff source before p next) : p ∈ (pieces source).1 := by
  obtain ⟨after, hps, -⟩ := h
  exact hps ▸ List.mem_append_right _ List.mem_cons_self

theorem earlier (h : CutsOff source (outer ++ q :: inner) p next) :
    CutsOff source outer q (coveredText inner ++ (p.text ++ next)) := by
  obtain ⟨after, hps, rfl⟩ := h
  refine ⟨inner ++ p :: after, by simpa using hps, ?_⟩
  simp [coveredText]

end CutsOff

theorem first?_of_isWord (hw : IsWord w) (ht : w <+: t) :
    ∃ v r, w <+: v ∧ Piece.first? t = some (⟨.token (.ofWord v), v⟩, r) := by
  obtain ⟨c, cs, rfl, hc, hcs⟩ := hw
  obtain ⟨u, rfl⟩ := ht
  have hv : IsWord (c :: cs ++ u.takeWhile isIdentRest) :=
    ⟨c, _, rfl, hc, List.forall_mem_append.2 ⟨hcs, fun _ => List.mem_takeWhile_imp⟩⟩
  have hfirst := first?_word hv (headNot_dropWhile _ u)
  rw [List.append_assoc, List.takeWhile_append_dropWhile] at hfirst
  exact ⟨_, _, List.prefix_append .., hfirst⟩

theorem CutsOff.prefix_of_isWord (h : CutsOff source before p next) (hw : IsWord w)
    (ht : w <+: p.text ++ next) : w <+: p.text := by
  obtain ⟨v, r, hv, hfirst⟩ := first?_of_isWord hw ht
  rw [h.first?] at hfirst
  cases hfirst
  exact hv

theorem CutsOff.not_isWord_concat (h : CutsOff source before p next) (hc : c ∈ next.head?) :
    ¬ IsWord (p.text ++ [c]) := by
  intro hw
  obtain ⟨next, rfl⟩ := List.head?_eq_some_iff.1 hc
  have hpre := h.prefix_of_isWord hw ⟨next, List.append_assoc ..⟩
  have hlength := hpre.length_le
  rw [List.length_append, List.length_singleton] at hlength
  omega

/-- A longer word that holds the whole piece can be read from where it or one of the pieces in front
of it starts. What a number or a directive ends in is no start of a word. -/
def PartOfLongerWord (before : List Piece) (p : Piece) (next : Text) : Prop :=
  ∃ outer inner w, before = outer ++ inner ∧ IsWord w ∧ w ≠ p.text ∧
    coveredText inner ++ p.text <+: w ∧ w <+: coveredText inner ++ (p.text ++ next)

theorem CutsOff.not_partOfLongerWord (h : CutsOff source before p next) :
    ¬ PartOfLongerWord before p next := by
  rintro ⟨outer, inner, w, rfl, hw, hne, hholds, hread⟩
  cases inner with
  | nil => exact hne ((h.prefix_of_isWord hw hread).eq_of_length_le hholds.length_le)
  | cons q inner =>
    -- The word lies in the first of the pieces, and so nothing of the last one does.
    have hcovered (t : Text) : coveredText (q :: inner) ++ t = q.text ++ (coveredText inner ++ t) :=
      List.append_assoc ..
    rw [hcovered] at hholds hread
    have hlength := (hholds.trans (h.earlier.prefix_of_isWord hw hread)).length_le
    have hpos := List.length_pos_iff.2 (pieces_ne_nil source p h.mem)
    rw [List.length_append, List.length_append] at hlength
    omega

namespace TokenKind

def reserved : List TokenKind :=
  keywords.map Prod.snd

theorem mem_keywords_of_ofWord (h : ofWord t = k) (hk : k ∈ reserved) : (t, k) ∈ keywords := by
  rw [ofWord] at h
  cases hl : keywords.lookup t with
  | none =>
    rw [hl] at h
    subst h
    exact absurd hk (by decide)
  | some kind =>
    rw [hl] at h
    obtain rfl : kind = k := h
    obtain ⟨l₁, l₂, heq, -⟩ := List.lookup_eq_some_iff.1 hl
    simp [heq]

theorem notMem_keywords_of_ofWord (h : ofWord t = .ident) : t ∉ keywords.map Prod.fst := by
  intro hmem
  have hall : ∀ w ∈ keywords.map Prod.fst, ofWord w ≠ .ident := by decide
  exact hall t hmem h

end TokenKind

theorem Lexeme.Fits.isWord (h : Fits ⟨k, t⟩) (hk : k = .ident ∨ k ∈ TokenKind.reserved) :
    IsWord t ∧ .ofWord t = k := by
  cases h with
  | word h => exact ⟨h, rfl⟩
  | mark h =>
    have hall : ∀ m ∈ marks, ¬(m.1 = .ident ∨ m.1 ∈ TokenKind.reserved) := by decide
    exact absurd hk (hall _ h)
  | _ => exact absurd hk (by decide)

theorem CutsOff.isWord (h : CutsOff source before p next) (hp : p.kind = .token k)
    (hk : k = .ident ∨ k ∈ TokenKind.reserved) : IsWord p.text ∧ .ofWord p.text = k := by
  have hfloat : k ≠ .float := by
    rintro rfl
    exact absurd hk (by decide)
  have hmem : ⟨.token k, p.text⟩ ∈ (pieces source).1 := hp ▸ h.mem
  exact (pieces_fit hfloat hmem).isWord hk

namespace Lexeme

/-- Perhaps a sign, a zero, an `x` in either case, and hexadecimal digits. -/
def IsHexadecimal (t : Text) : Prop :=
  ∃ sign x digits, IsSign sign ∧ (x = 'x' ∨ x = 'X') ∧ digits ≠ [] ∧
    (∀ c ∈ digits, isHexDigit c) ∧ t = sign ++ '0' :: x :: digits

theorem isHexDigit_of_isHexadecimal (h : IsHexadecimal (t ++ [c])) : isHexDigit c := by
  obtain ⟨sign, x, digits, -, -, hne, hdigits, heq⟩ := h
  obtain ⟨front, d, rfl⟩ := (List.eq_nil_or_concat digits).resolve_left hne
  rw [List.concat_eq_append] at hdigits heq
  have hsplit : t ++ [c] = (sign ++ '0' :: x :: front) ++ [d] := by simpa using heq
  obtain ⟨-, hcd⟩ := List.append_inj' hsplit rfl
  obtain rfl : c = d := List.singleton_inj.1 hcd
  exact hdigits c (by simp)

end Lexeme

theorem Pattern.Takes.headNot_isHexDigit (h : Pattern.int.Takes l r) (hl : IsHexadecimal l) :
    HeadNot isHexDigit r := by
  obtain ⟨s, rest, rfl, hs, hrest⟩ := takes_seq_iff.1 h
  rcases takes_either_iff.1 hrest with hhex | ⟨-, hdecimal⟩
  · obtain ⟨_, rfl, hletter⟩ := takes_char_seq_iff.1 hhex
    obtain ⟨_, digits, rfl, -, hdigits⟩ := takes_seq_iff.1 hletter
    exact (takes_many1_iff.1 hdigits).2.2
  · -- There is no `x` in a decimal number.
    obtain ⟨-, hdigits, -⟩ := takes_many1_iff.1 hdecimal
    obtain ⟨sign, x, digits, -, hx, -, -, heq⟩ := hl
    have hmem : x ∈ s ++ rest := by simp [heq]
    rcases List.mem_append.1 hmem with hsign | hdigit
    · rcases hs.sign with rfl | rfl | rfl <;> rcases hx with rfl | rfl <;>
        exact absurd hsign (by decide)
    · rcases hx with rfl | rfl <;> exact absurd (hdigits _ hdigit) (by decide)

theorem CutsOff.int (h : CutsOff source before p next) (hp : p.kind = .token .int) :
    Pattern.int.Takes p.text next := by
  obtain ⟨⟨kind, pattern⟩, hmem, htakes, hkind⟩ := Piece.first?_eq_some h.first?
  rcases PieceKind.refined_eq_token (hp.symm.trans hkind) with rfl | ⟨-, hword⟩
  · obtain rfl : pattern = Pattern.int := by simpa [terminals] using hmem
    exact htakes
  · exact absurd (by simp [← hword]) (ofWord_notMem p.text)

theorem CutsOff.not_isHexadecimal_concat (h : CutsOff source before p next)
    (hp : p.kind = .token .int) (hx : IsHexadecimal p.text) (hc : c ∈ next.head?) :
    ¬ IsHexadecimal (p.text ++ [c]) := by
  intro hmore
  have hhead := (h.int hp).headNot_isHexDigit hx
  obtain ⟨next, rfl⟩ := List.head?_eq_some_iff.1 hc
  rw [headNot_cons, isHexDigit_of_isHexadecimal hmore] at hhead
  cases hhead

/-- The pieces of a text, none of them empty, and what is left behind them make up the text. What is
left starts at the first place that is come to where no terminal matches, and it is what a scan of
the text stops at; the tokens of the scan are the pieces that are no layout. Each piece is what a
terminal takes from the text there. An identifier is not reserved, and no character follows it that
would make a longer word of it; nor does a hexadecimal digit follow a hexadecimal number. A keyword
has the kind of its whole word and is not part of a longer one. -/
theorem pieces_partition (source : Text) :
    (coveredText (pieces source).1 ++ (pieces source).2 = source ∧
      (∀ p ∈ (pieces source).1, p.text ≠ []) ∧
      ∀ before after, (pieces source).1 = before ++ after →
        (Unmatched (coveredText after ++ (pieces source).2) ↔ after = [])) ∧
    ((Scan.ofText source).tokens.map Token.lexeme = (pieces source).1.filterMap Piece.lexeme? ∧
      (Scan.ofText source).stop = (pieces source).2.head?.map fun c =>
        (c, .behind (coveredText (pieces source).1))) ∧
    ∀ before p next, CutsOff source before p next →
      (∃ k ∈ terminals, k.2.Takes p.text next ∧ p.kind = k.1.refined p.text) ∧
      (p.kind = .token .ident → IsWord p.text ∧ p.text ∉ TokenKind.keywords.map Prod.fst ∧
        ∀ c ∈ next.head?, ¬ IsWord (p.text ++ [c])) ∧
      (∀ k ∈ TokenKind.reserved, p.kind = .token k →
        (p.text, k) ∈ TokenKind.keywords ∧ ¬ PartOfLongerWord before p next) ∧
      (p.kind = .token .int → IsHexadecimal p.text →
        ∀ c ∈ next.head?, ¬ IsHexadecimal (p.text ++ [c])) := by
  refine ⟨⟨pieces_append source, pieces_ne_nil source, fun _ _ => unmatched_iff⟩,
    ⟨lexeme_tokensFrom .start _, ?_⟩, fun before p next h => ⟨?_, ?_, ?_, ?_⟩⟩
  · simp [Scan.ofText, Position.start_after]
  · exact Piece.first?_eq_some h.first?
  · intro hp
    obtain ⟨hword, hkind⟩ := h.isWord hp (.inl rfl)
    exact ⟨hword, TokenKind.notMem_keywords_of_ofWord hkind, fun _ => h.not_isWord_concat⟩
  · intro k hk hp
    obtain ⟨-, hkind⟩ := h.isWord hp (.inr hk)
    exact ⟨TokenKind.mem_keywords_of_ofWord hkind hk, h.not_partOfLongerWord⟩
  · exact fun hp hx _ => h.not_isHexadecimal_concat hp hx

/-- A keyword, a longer word, a hexadecimal number with a word right behind it and a guard line, and
then a character that no terminal matches. -/
def crowded : Text :=
  "enum enums 0xAg#else\n@".toList

theorem crowded_pieces :
    pieces crowded =
      ([⟨.token .kwEnum, "enum".toList⟩, ⟨.layout .blanks, [' ']⟩,
          ⟨.token .ident, "enums".toList⟩, ⟨.layout .blanks, [' ']⟩,
          ⟨.token .int, "0xA".toList⟩, ⟨.token .ident, ['g']⟩,
          ⟨.layout .guardLine, "#else".toList⟩, ⟨.layout .blanks, ['\n']⟩], ['@']) := by
  decide +kernel

theorem pieces_partition_crowded :
    (Unmatched ['@'] ∧ (Scan.ofText crowded).stop = some ('@', ⟨2, 1⟩)) ∧
    (CutsOff crowded [] ⟨.token .kwEnum, "enum".toList⟩ " enums 0xAg#else\n@".toList ∧
      ¬ PartOfLongerWord [] ⟨.token .kwEnum, "enum".toList⟩ " enums 0xAg#else\n@".toList) ∧
    ∃ before, CutsOff crowded before ⟨.token .int, "0xA".toList⟩ "g#else\n@".toList ∧
      IsHexadecimal "0xA".toList ∧ ¬ IsHexadecimal "0xAg".toList := by
  obtain ⟨⟨-, -, hstop⟩, ⟨-, hscan⟩, hpieces⟩ := pieces_partition crowded
  rw [crowded_pieces] at hstop hscan
  have hword : CutsOff crowded [] ⟨.token .kwEnum, "enum".toList⟩
      " enums 0xAg#else\n@".toList :=
    ⟨_, by rw [crowded_pieces]; rfl, by rw [crowded_pieces]; rfl⟩
  have hnumber : CutsOff crowded ((pieces crowded).1.take 4) ⟨.token .int, "0xA".toList⟩
      "g#else\n@".toList :=
    ⟨_, by rw [crowded_pieces]; rfl, by rw [crowded_pieces]; rfl⟩
  have hx : IsHexadecimal "0xA".toList :=
    ⟨[], 'x', ['A'], .inl rfl, .inl rfl, by decide, List.forall_mem_singleton.2 rfl, rfl⟩
  refine ⟨⟨(hstop _ [] (List.append_nil _).symm).2 rfl, hscan⟩, ⟨hword, ?_⟩, _, hnumber, hx, ?_⟩
  · exact ((hpieces _ _ _ hword).2.2.1 .kwEnum (by decide) rfl).2
  · exact (hpieces _ _ _ hnumber).2.2.2 rfl hx 'g' rfl

end SliceIdl
