import SliceIdl.Proofs.Source.FirstPiece

/-!
# Written tokens are found

A text that is written as a list of tokens, with gaps between them, is cut into just those tokens.
A gap is found to be layout piece by piece; the line feed behind a comment or a guard line is not
part of it and belongs to the blanks that follow.
-/

set_option autoImplicit false

namespace SliceIdl
open Text Pattern

namespace Lexeme

variable {a c : Char} {g r t w : Text} {ls : List Lexeme}

theorem refined_layout (k : Layout) (t : Text) :
    (PieceKind.layout k).refined t = .layout k := by
  simp [PieceKind.refined]

theorem candidates_space (h : isSpace c) : candidates c = [(.layout .blanks, .blanks)] := by
  simp only [isSpace, Bool.or_eq_true, beq_iff_eq] at h
  rcases h with (((rfl | rfl) | rfl) | rfl) | rfl <;> rfl

theorem blanks_eq_many1 : Pattern.blanks = many1 isSpace := rfl

theorem first?_blanks (h : isSpace c) (t : Text) :
    Piece.first? (c :: t) =
      some (⟨.layout .blanks, c :: t.takeWhile isSpace⟩, t.dropWhile isSpace) := by
  rw [Piece.first?_cons, candidates_space h, blanks_eq_many1]
  simp [split?, many1, h, refined_layout]

theorem candidates_slash : candidates '/' =
    [(.layout .lineComment, .lineComment), (.layout .blockComment, .blockComment)] := rfl

theorem first?_lineComment (h : OnLine t) (hr : HeadNot (· != '\n') r) :
    Piece.first? ('/' :: '/' :: t ++ r) = some (⟨.layout .lineComment, '/' :: '/' :: t⟩, r) :=
  Piece.first?_of_takes [] _ candidates_slash (by simp)
    (takes_word.seq (takes_run (by simpa [OnLine] using h) hr))

theorem throughSplit_first (h : ∀ a b, t ++ ['*'] ≠ a ++ '*' :: '/' :: b) :
    throughSplit ['*', '/'] (t ++ '*' :: '/' :: r) = some (t ++ ['*', '/'], r) := by
  induction t with
  | nil => rfl
  | cons c t ih =>
    have ih := ih fun a b hab => h (c :: a) b (by simp [hab])
    have hnone : after? ['*', '/'] (c :: (t ++ '*' :: '/' :: r)) = none := by
      by_cases hc : c = '*'
      · cases t with
        | nil => simp [after?]
        | cons d t =>
          have hd : d ≠ '/' := by
            rintro rfl
            exact h [] (t ++ ['*']) (by simp [hc])
          simp [after?, Ne.symm hd]
      · simp [after?, Ne.symm hc]
    rw [List.cons_append, throughSplit, hnone, ih]
    rfl

theorem first?_blockComment (h : ∀ a b, t ++ ['*'] ≠ a ++ '*' :: '/' :: b) :
    Piece.first? ('/' :: '*' :: t ++ '*' :: '/' :: r) =
      some (⟨.layout .blockComment, '/' :: '*' :: t ++ ['*', '/']⟩, r) := by
  have hline : lineComment.split? ('/' :: '*' :: t ++ '*' :: '/' :: r) = none :=
    seq_eq_none_left rfl
  have hthrough : (through ['*', '/']).Takes (t ++ ['*', '/']) r := by
    simpa [Takes, split?] using throughSplit_first h
  have hblock : blockComment.Takes ('/' :: '*' :: (t ++ ['*', '/'])) r := takes_word.seq hthrough
  simpa [refined_layout] using
    Piece.first?_of_takes [_] [] candidates_slash (by simpa using hline) hblock

theorem wholeWord_eq_none {v : Text} (hne : v ≠ w) (hv : ∀ c ∈ v, isWordCharacter c)
    (hw : ∀ c ∈ w, isWordCharacter c) (hr : HeadNot isWordCharacter r) :
    ((word v).seq wordEnd).split? (w ++ r) = none := by
  cases hs : (word v).split? (w ++ r) with
  | none => exact seq_eq_none_left hs
  | some s =>
    obtain ⟨l, t⟩ := s
    have hl : l = v := by
      simp only [split?, Option.map_eq_some_iff, Prod.mk.injEq] at hs
      obtain ⟨_, _, rfl, _⟩ := hs
      rfl
    subst hl
    have happ := split?_append hs
    have hword : wordEnd.split? t = none := by
      rcases List.append_eq_append_iff.1 happ with ⟨a, rfl, rfl⟩ | ⟨a, rfl, rfl⟩
      · cases a with
        | nil => simp at hne
        | cons c a => simp [split?, hw c (by simp)]
      · cases a with
        | nil => simp at hne
        | cons c a =>
          have hc := headNot_cons.1 hr
          simp [hv c (by simp)] at hc
    have htakes : (word l).Takes l t := by rw [Takes, happ, hs]
    rw [← happ]
    exact htakes.seq_eq_none hword

theorem takes_wholeWord {ws : List Text} (hmem : w ∈ ws)
    (hws : ∀ v ∈ ws, ∀ c ∈ v, isWordCharacter c) (hr : HeadNot isWordCharacter r) :
    (wholeWord ws).Takes w r := by
  induction ws with
  | nil => cases hmem
  | cons v ws ih =>
    have htail := fun h => ih h fun u hu => hws u (List.mem_cons_of_mem v hu)
    by_cases hv : v = w
    · subst hv
      have htakes : ((word v).seq wordEnd).Takes (v ++ []) r := takes_word.seq (takes_wordEnd hr)
      rw [List.append_nil] at htakes
      exact htakes.left
    · have hw := (List.mem_cons.1 hmem).resolve_left (Ne.symm hv)
      exact .right (wholeWord_eq_none hv (hws v List.mem_cons_self) (hws w hmem) hr) (htail hw)

theorem guardWords_refused (h : w ∈ guardWords) (r : Text) :
    HeadNot isInlineBlank (w ++ r) ∧ after? "pragma".toList (w ++ r) = none ∧
      after? "include".toList (w ++ r) = none := by
  simp only [guardWords, List.mem_cons, List.not_mem_nil, or_false] at h
  rcases h with rfl | rfl | rfl | rfl | rfl | rfl | rfl | rfl <;> exact ⟨rfl, rfl, rfl⟩

theorem first?_guardLine {a : Text} (ha : IsInline a) (hw : w ∈ guardWords)
    (hend : HeadNot isWordCharacter t) (ht : OnLine t) (hr : HeadNot (· != '\n') r) :
    Piece.first? ('#' :: a ++ w ++ t ++ r) =
      some (⟨.layout .guardLine, '#' :: a ++ w ++ t⟩, r) := by
  obtain ⟨hhead, hpragma, hinclude⟩ := guardWords_refused hw (t ++ r)
  have hp : pragmaOnce.split? ('#' :: (a ++ (w ++ (t ++ r)))) = none :=
    directive_eq_none ha hhead (seq_eq_none_left (by simp only [split?, hpragma, Option.map_none]))
  have hi : includeFile.split? ('#' :: (a ++ (w ++ (t ++ r)))) = none :=
    directive_eq_none ha hhead (seq_eq_none_left (by simp only [split?, hinclude, Option.map_none]))
  have hendr : HeadNot isWordCharacter (t ++ r) := by
    cases t with
    | cons c t => exact headNot_cons.2 (headNot_cons.1 hend)
    | nil =>
      cases r with
      | nil => exact headNot_nil
      | cons c r =>
        obtain rfl : c = '\n' := by simpa [headNot_cons] using hr
        exact headNot_cons.2 rfl
  have hg : guardLine.Takes ('#' :: (a ++ (w ++ t))) r := by
    refine takes_directive ha (by simpa using hhead) (Takes.seq ?_ (takes_run ?_ hr))
    · have hwords : guardWords.all (·.all isWordCharacter) = true := rfl
      simp only [List.all_eq_true] at hwords
      exact takes_wholeWord hw hwords hendr
    · simpa [OnLine] using ht
  simpa [refined_layout] using
    Piece.first?_of_takes [_, _] [] candidates_hash (by simpa using ⟨hp, hi⟩) hg

end Lexeme

def Piece.lexeme? (p : Piece) : Option Lexeme :=
  match p.kind with
  | .token kind => some ⟨kind, p.text⟩
  | .layout _ => none

/-- The text is cut up completely, and these are its tokens. -/
def Cuts (t : Text) (ls : List Lexeme) : Prop :=
  (pieces t).2 = [] ∧ (pieces t).1.filterMap Piece.lexeme? = ls

variable {c : Char} {g r t : Text} {p : Piece} {ls : List Lexeme}

theorem pieces_of_first? (h : Piece.first? t = some (p, r)) :
    pieces t = (p :: (pieces r).1, (pieces r).2) := by
  rw [pieces]
  split
  · next hn => simp [hn] at h
  · next p' r' hs =>
    rw [h] at hs
    cases hs
    rfl

theorem pieces_of_none (h : Piece.first? t = none) : pieces t = ([], t) := by
  rw [pieces]
  split
  · rfl
  · next p' r' hs => simp [hs] at h

theorem pieces_nil : pieces [] = ([], []) :=
  pieces_of_none rfl

theorem first?_rest (t : Text) : Piece.first? (pieces t).2 = none := by
  fun_induction pieces t with
  | case1 t h => exact h
  | case2 t p r h _ ps rest heq ih =>
    rw [heq] at ih
    exact ih

theorem Piece.first?_eq_none_iff :
    Piece.first? t = none ↔ ∀ k ∈ terminals, k.2.split? t = none := by
  simp [Piece.first?]

theorem cuts_nil : Cuts [] [] := by
  simp [Cuts, pieces_nil]

theorem cuts_of_token {kind : TokenKind} {l : Text}
    (h : Piece.first? t = some (⟨.token kind, l⟩, r)) (hr : Cuts r ls) :
    Cuts t (⟨kind, l⟩ :: ls) := by
  have hl : Piece.lexeme? ⟨.token kind, l⟩ = some ⟨kind, l⟩ := rfl
  rw [Cuts, pieces_of_first? h]
  exact ⟨hr.1, by rw [List.filterMap_cons_some hl, hr.2]⟩

theorem cuts_of_layout {k : Layout} {l : Text} (h : Piece.first? t = some (⟨.layout k, l⟩, r)) :
    Cuts t ls ↔ Cuts r ls := by
  rw [Cuts, pieces_of_first? h, List.filterMap_cons_none rfl, Cuts]

open Lexeme

theorem cuts_dropWhile : Cuts (t.dropWhile isSpace) ls ↔ Cuts t ls := by
  cases t with
  | nil => rfl
  | cons c t =>
    cases h : isSpace c with
    | true =>
      rw [List.dropWhile_cons_of_pos h]
      exact (cuts_of_layout (first?_blanks h t)).symm
    | false => rw [List.dropWhile_cons_of_neg (by simp [h])]

theorem Cuts.space (hc : isSpace c) (h : Cuts t ls) : Cuts (c :: t) ls :=
  (cuts_of_layout (first?_blanks hc t)).2 (cuts_dropWhile.2 h)

theorem Cuts.gap (hg : Gap g) (h : Cuts t ls) : Cuts (g ++ t) ls := by
  have hline : ∀ r, HeadNot (· != '\n') ('\n' :: r) := fun _ => headNot_cons.2 rfl
  induction hg with
  | nil => exact h
  | space hc _ ih => exact ih.space hc
  | @lineComment s g ht _ ih =>
    have hfirst := first?_lineComment (r := '\n' :: (g ++ t)) ht (hline _)
    simpa using (cuts_of_layout hfirst).2 (ih.space rfl)
  | @blockComment s g ht _ ih =>
    have hfirst := first?_blockComment (r := g ++ t) ht
    simpa using (cuts_of_layout hfirst).2 ih
  | @guardLine a w s g ha hw hend ht _ ih =>
    have hfirst := first?_guardLine (r := '\n' :: (g ++ t)) ha hw hend ht (hline _)
    simpa using (cuts_of_layout hfirst).2 (ih.space rfl)

theorem Cuts.written (h : Written ls t) : Cuts t ls := by
  induction h with
  | nil hg => simpa using cuts_nil.gap hg
  | cons hg hl hend _ ih =>
    rw [List.append_assoc]
    exact (cuts_of_token (hl.first? hend) ih).gap hg

theorem lexeme_tokensFrom (pos : Position) (ps : List Piece) :
    (tokensFrom pos ps).map Token.lexeme = ps.filterMap Piece.lexeme? := by
  induction ps generalizing pos with
  | nil => rfl
  | cons p ps ih =>
    rw [tokensFrom]
    split
    · next kind h =>
      have hp : p.lexeme? = some ⟨kind, p.text⟩ := by rw [Piece.lexeme?, h]
      rw [List.map_cons, ih, List.filterMap_cons_some hp]
      rfl
    · next k h =>
      have hp : p.lexeme? = none := by rw [Piece.lexeme?, h]
      rw [ih, List.filterMap_cons_none hp]

/-- A written text is cut into the tokens it is written of, and nothing of it is left. -/
theorem Scan.ofText_written (h : Written ls t) :
    (Scan.ofText t).stop = none ∧ (Scan.ofText t).tokens.map Token.lexeme = ls := by
  obtain ⟨hrest, htokens⟩ := Cuts.written h
  constructor
  · simp [Scan.ofText, hrest]
  · rw [← htokens]
    exact lexeme_tokensFrom .start _

end SliceIdl
