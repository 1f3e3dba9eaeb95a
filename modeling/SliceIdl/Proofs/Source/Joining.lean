import SliceIdl.Proofs.Source.Seams

/-!
# Texts behind each other

What is cut from the front of a text is cut as well when the rest is taken away, or is replaced by
something that starts a new line. The tokens of both parts are then found at their places, as a scan
goes on behind a token or layout from the position there.
-/

set_option autoImplicit false

namespace SliceIdl
open Text Pattern Lexeme

variable {c : Char} {l r t u v w : Text} {p : Piece} {pos : Position} {ts : List Token}

def Scan.startingAt (pos : Position) (t : Text) : Scan where
  tokens := tokensFrom pos (pieces t).1
  stop := (pieces t).2.head?.map fun c => (c, pos.after (coveredText (pieces t).1))

namespace Scan

theorem startingAt_of_none (h : Piece.first? t = none) :
    startingAt pos t = ⟨[], t.head?.map fun c => (c, pos)⟩ := by
  rw [startingAt, pieces_of_none h]
  rfl

theorem startingAt_token {kind : TokenKind}
    (h : Piece.first? (l ++ r) = some (⟨.token kind, l⟩, r)) :
    startingAt pos (l ++ r) =
      ⟨⟨kind, l, pos⟩ :: (startingAt (pos.after l) r).tokens,
        (startingAt (pos.after l) r).stop⟩ := by
  rw [startingAt, pieces_of_first? h]
  simp [startingAt, tokensFrom, coveredText, Position.after_append]

theorem startingAt_layout {k : Layout} (h : Piece.first? (l ++ r) = some (⟨.layout k, l⟩, r)) :
    startingAt pos (l ++ r) = startingAt (pos.after l) r := by
  rw [startingAt, pieces_of_first? h]
  simp [startingAt, tokensFrom, coveredText, Position.after_append]

theorem startingAt_blanks (hc : isSpace c) : startingAt pos (c :: t) =
    startingAt (pos.after (c :: t.takeWhile isSpace)) (t.dropWhile isSpace) := by
  rw [← startingAt_layout (k := .blanks)]
  · rw [List.cons_append, List.takeWhile_append_dropWhile]
  · rw [List.cons_append, List.takeWhile_append_dropWhile]
    exact first?_blanks hc t

theorem startingAt_space (hc : isSpace c) :
    startingAt pos (c :: t) = startingAt (pos.next c) t := by
  rw [startingAt_blanks hc]
  cases t with
  | nil => rfl
  | cons d t =>
    cases hd : isSpace d with
    | true =>
      rw [startingAt_blanks hd, List.takeWhile_cons_of_pos hd, List.dropWhile_cons_of_pos hd]
      rfl
    | false =>
      rw [List.takeWhile_cons_of_neg (by simp [hd]), List.dropWhile_cons_of_neg (by simp [hd])]
      rfl

end Scan

theorem Layout.Writes.startingAt {k : Layout} (h : k.Writes l)
    (hr : k.fillsLine → HeadNot (· != '\n') r) :
    Scan.startingAt pos (l ++ r) = Scan.startingAt (pos.after l) r := by
  by_cases hk : k = .blanks
  · subst hk
    induction l generalizing pos with
    | nil => rfl
    | cons c l ih =>
      have hl : Layout.blanks.Writes l := fun d hd => h d (List.mem_cons_of_mem c hd)
      rw [List.cons_append, Scan.startingAt_space (h c List.mem_cons_self), ih hl]
      rfl
  · exact Scan.startingAt_layout (h.first? hk hr)

/-- The text, of which the first character stands at the position, is cut up completely, and these
are its tokens. -/
def CutsAt (pos : Position) (t : Text) (ts : List Token) : Prop :=
  (pieces t).2 = [] ∧ tokensFrom pos (pieces t).1 = ts

theorem cutsAt_iff : CutsAt pos t ts ↔ Scan.startingAt pos t = ⟨ts, none⟩ := by
  simp [CutsAt, Scan.startingAt, and_comm]

theorem cutsAt_nil : CutsAt pos [] [] := by
  simp [CutsAt, pieces_nil, tokensFrom]

theorem cutsAt_of_token {kind : TokenKind} (h : Piece.first? (l ++ r) = some (⟨.token kind, l⟩, r))
    (hr : CutsAt (pos.after l) r ts) : CutsAt pos (l ++ r) (⟨kind, l, pos⟩ :: ts) := by
  rw [cutsAt_iff] at hr ⊢
  rw [Scan.startingAt_token h, hr]

theorem cutsAt_space (hc : isSpace c) : CutsAt pos (c :: t) ts ↔ CutsAt (pos.next c) t ts := by
  rw [cutsAt_iff, cutsAt_iff, Scan.startingAt_space hc]

theorem Layout.Writes.cutsAt {k : Layout} (h : k.Writes l)
    (hr : k.fillsLine → HeadNot (· != '\n') r) :
    CutsAt pos (l ++ r) ts ↔ CutsAt (pos.after l) r ts := by
  rw [cutsAt_iff, cutsAt_iff, h.startingAt hr]

theorem scan_eq_iff : (Scan.ofText t).stop = none ∧ (Scan.ofText t).tokens = ts ↔
    CutsAt .start t ts := by
  simp [Scan.ofText, CutsAt]

theorem breaks_of_headNot (h : HeadNot (· != '\n') v) : Breaks v := by
  cases v with
  | nil => exact breaks_nil
  | cons c v =>
    obtain rfl : c = '\n' := by simpa [headNot_cons] using h
    exact breaks_cons.2 (by decide)

/-- What is found in front is found at the same places if the rest is replaced by something that
starts a new line, or by nothing. -/
theorem cutsAt_coveredText (hv : HeadNot (· != '\n') v)
    (h : CutsAt (pos.after (coveredText (pieces t).1)) v ts) :
    CutsAt pos (coveredText (pieces t).1 ++ v) (tokensFrom pos (pieces t).1 ++ ts) := by
  fun_induction pieces t generalizing pos with
  | case1 => exact h
  | case2 t p r hfirst _ ps rest heq ih =>
    rw [heq] at ih
    have hr := pieces_append r
    rw [heq] at hr
    obtain ⟨kind, l⟩ := p
    have ht := Piece.first?_append hfirst
    have hcovered : coveredText (⟨kind, l⟩ :: ps) = l ++ coveredText ps := rfl
    rw [hcovered, Position.after_append] at h
    have hrec := ih h
    rw [hcovered, List.append_assoc]
    rw [← ht, ← hr] at hfirst
    cases kind with
    | token kind => exact cutsAt_of_token (Piece.first?_recut hfirst (breaks_of_headNot hv)) hrec
    | layout k =>
      obtain ⟨hl, hline⟩ := Piece.layout_writes hfirst
      exact (hl.cutsAt fun hf => (hline hf).replace hv).2 hrec

end SliceIdl
