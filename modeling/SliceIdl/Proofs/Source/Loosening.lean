import SliceIdl.Proofs.Source.Joining

/-!
# Gaps around tokens

A text that is cut up completely keeps its tokens when gaps are put in front of them and behind
them.
-/

set_option autoImplicit false

namespace SliceIdl
open Text Pattern Lexeme

variable {g l r s t : Text} {ps : List Piece} {ls : List Lexeme}

/-- The text of the pieces, with a gap in front of each token and another one behind it. Either of
them may be empty. -/
inductive Loosened : List Piece → Text → Prop
  | nil : Loosened [] []
  | layout {k : Layout} {l t : Text} {ps : List Piece} (h : Loosened ps t) :
      Loosened (⟨.layout k, l⟩ :: ps) (l ++ t)
  | token {k : TokenKind} {g l g' t : Text} {ps : List Piece} (hg : Gap g) (hg' : Gap g')
      (h : Loosened ps t) : Loosened (⟨.token k, l⟩ :: ps) (g ++ l ++ g' ++ t)

/-- The second text agrees with the first one up to a place from where it goes on with layout. -/
def Agrees (s t : Text) : Prop :=
  ∃ u v w, s = u ++ v ∧ t = u ++ w ∧ Breaks w

theorem Agrees.append_left (h : Agrees s t) (l : Text) : Agrees (l ++ s) (l ++ t) := by
  obtain ⟨u, v, w, rfl, rfl, hw⟩ := h
  exact ⟨l ++ u, v, w, (List.append_assoc ..).symm, (List.append_assoc ..).symm, hw⟩

theorem breaks_gap (hg : Gap g) (hne : g ≠ []) : Breaks (g ++ t) := by
  cases hg with
  | nil => exact absurd rfl hne
  | @space c g hc _ =>
    have hspace : c = ' ' ∨ c = '\t' ∨ c = '\x0c' ∨ c = '\r' ∨ c = '\n' := by
      simpa [isSpace, or_assoc] using hc
    exact breaks_cons.2 (by rcases hspace with rfl | rfl | rfl | rfl | rfl <;> decide)
  | lineComment => exact breaks_cons.2 (by decide)
  | blockComment => exact breaks_cons.2 (by decide)
  | guardLine => exact breaks_cons.2 (by decide)

theorem Agrees.gap (h : Agrees s t) (hg : Gap g) : Agrees s (g ++ t) := by
  by_cases hne : g = []
  · rwa [hne, List.nil_append]
  · exact ⟨[], s, g ++ t, rfl, rfl, breaks_gap hg hne⟩

theorem Loosened.agrees (h : Loosened ps t) : Agrees (coveredText ps) t := by
  induction h with
  | nil => exact ⟨[], [], [], rfl, rfl, breaks_nil⟩
  | @layout k l t ps _ ih => exact ih.append_left l
  | @token k g l g' t ps hg hg' _ ih =>
    rw [List.append_assoc, List.append_assoc]
    exact ((ih.gap hg').append_left l).gap hg

theorem Loosened.headNot (h : Loosened (pieces r).1 t) (hr : HeadNot (· != '\n') r) :
    HeadNot (· != '\n') t := by
  cases r with
  | nil =>
    rw [pieces_nil] at h
    cases h
    exact headNot_nil
  | cons c r =>
    obtain rfl : c = '\n' := by simpa [headNot_cons] using hr
    rw [pieces_of_first? (first?_blanks rfl r)] at h
    cases h
    exact headNot_cons.2 rfl

theorem cuts_iff (pos : Position) :
    Cuts t ls ↔ ∃ ts, CutsAt pos t ts ∧ ts.map Token.lexeme = ls := by
  simp [Cuts, CutsAt, and_assoc, lexeme_tokensFrom]

theorem Layout.Writes.cuts {k : Layout} (h : k.Writes l)
    (hr : k.fillsLine → HeadNot (· != '\n') r) : Cuts (l ++ r) ls ↔ Cuts r ls := by
  rw [cuts_iff .start, cuts_iff (Position.start.after l)]
  simp only [h.cutsAt hr]

/-- Gaps around its tokens do not change into which tokens a text is cut. -/
theorem Loosened.cuts (hrest : (pieces t).2 = []) (h : Loosened (pieces t).1 s) :
    Cuts s ((pieces t).1.filterMap Piece.lexeme?) := by
  fun_induction pieces t generalizing s with
  | case1 =>
    cases h
    exact cuts_nil
  | case2 t p r hfirst _ ps rest heq ih =>
    rw [heq] at ih
    obtain rfl : rest = [] := hrest
    have hr := pieces_append r
    rw [heq, List.append_nil] at hr
    rw [← Piece.first?_append hfirst] at hfirst
    cases h with
    | @layout k l s _ h =>
      obtain ⟨hl, hline⟩ := Piece.layout_writes hfirst
      have hhead := fun hf => Loosened.headNot (by rwa [heq]) (hline hf)
      exact (hl.cuts hhead).2 (ih rfl h)
    | @token k g l g' s _ hg hg' h =>
      obtain ⟨u, v, w, hps, hs, hw⟩ := h.agrees.gap hg'
      rw [← hr, hps] at hfirst
      have hfirst' := Piece.first?_recut hfirst hw
      rw [← hs] at hfirst'
      rw [List.append_assoc, List.append_assoc]
      exact (cuts_of_token hfirst' ((ih rfl h).gap hg')).gap hg

end SliceIdl
