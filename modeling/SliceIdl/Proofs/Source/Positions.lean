import Mathlib.Data.List.Induction
import SliceIdl.Source.Scan

/-!
# The positions of tokens

A position counts the line feeds in front of it and the characters behind the last of them. It grows
with every character, so the tokens of a text stand at ever later positions.
-/

set_option autoImplicit false

namespace SliceIdl

namespace Position

/-- The position behind a text that starts a file: its line feeds are counted, and the characters
behind the last one. -/
def behind (before : Text) : Position :=
  ⟨1 + before.count '\n', 1 + (before.reverse.takeWhile (· != '\n')).length⟩

theorem start_after (before : Text) : start.after before = behind before := by
  induction before using List.reverseRecOn with
  | nil => rfl
  | append_singleton before c ih =>
    have hnext : start.after (before ++ [c]) = (start.after before).next c := by
      rw [after_append]
      rfl
    rw [hnext, ih, next]
    by_cases hc : c = '\n'
    · simp [behind, hc, Nat.add_assoc]
    · have hne : ('\n' == c) = false := by simpa using Ne.symm hc
      simp [behind, hc, Nat.add_comm]

def Precedes (p q : Position) : Prop :=
  p.line < q.line ∨ p.line = q.line ∧ p.column < q.column

instance : DecidableRel Precedes :=
  fun _ _ => inferInstanceAs (Decidable (_ ∨ _ ∧ _))

variable {p q r : Position}

theorem Precedes.trans (h : Precedes p q) (h' : Precedes q r) : Precedes p r := by
  simp only [Precedes] at *
  omega

theorem precedes_next (p : Position) (c : Char) : Precedes p (p.next c) := by
  rw [next]
  split
  · exact .inl (Nat.lt_succ_self _)
  · exact .inr ⟨rfl, Nat.lt_succ_self _⟩

theorem precedes_after (p : Position) {t : Text} (h : t ≠ []) : Precedes p (p.after t) := by
  induction t generalizing p with
  | nil => exact absurd rfl h
  | cons c t ih =>
    have hcons : p.after (c :: t) = (p.next c).after t := rfl
    rw [hcons]
    by_cases ht : t = []
    · subst ht
      exact precedes_next p c
    · exact (precedes_next p c).trans (ih _ ht)

end Position

variable {pos : Position} {ps : List Piece} {source : Text} {t : Token}

theorem pieces_ne_nil (source : Text) : ∀ p ∈ (pieces source).1, p.text ≠ [] := by
  fun_induction pieces source with
  | case1 => exact fun p hp => absurd hp List.not_mem_nil
  | case2 source p r h _ ps rest heq ih =>
    rw [heq] at ih
    intro q hq
    rcases List.mem_cons.1 hq with rfl | hq
    · exact Piece.first?_ne_nil h
    · exact ih q hq

theorem of_mem_tokensFrom (h : t ∈ tokensFrom pos ps) :
    ∃ before after, ps = before ++ ⟨.token t.kind, t.text⟩ :: after ∧
      t.pos = pos.after (coveredText before) := by
  induction ps generalizing pos with
  | nil => cases h
  | cons p ps ih =>
    have hlater (h : t ∈ tokensFrom (pos.after p.text) ps) :
        ∃ before after, p :: ps = before ++ ⟨.token t.kind, t.text⟩ :: after ∧
          t.pos = pos.after (coveredText before) := by
      obtain ⟨before, after, rfl, hpos⟩ := ih h
      refine ⟨p :: before, after, rfl, ?_⟩
      rw [hpos, ← Position.after_append]
      rfl
    obtain ⟨kind, text⟩ := p
    rw [tokensFrom] at h
    cases kind with
    | layout k => exact hlater h
    | token k =>
      rcases List.mem_cons.1 h with rfl | h
      · exact ⟨[], ps, rfl, rfl⟩
      · exact hlater h

theorem tokensFrom_pairwise (hps : ∀ p ∈ ps, p.text ≠ []) :
    (tokensFrom pos ps).Pairwise fun t u => t.pos.Precedes u.pos := by
  induction ps generalizing pos with
  | nil => exact List.Pairwise.nil
  | cons p ps ih =>
    have hrest : (tokensFrom (pos.after p.text) ps).Pairwise fun t u => t.pos.Precedes u.pos :=
      ih fun q hq => hps q (List.mem_cons_of_mem _ hq)
    rw [tokensFrom]
    split
    · refine List.pairwise_cons.2 ⟨fun u hu => ?_, hrest⟩
      obtain ⟨before, after, -, hpos⟩ := of_mem_tokensFrom hu
      rw [hpos, ← Position.after_append]
      exact Position.precedes_after pos
        (List.append_ne_nil_of_left_ne_nil (hps p List.mem_cons_self) _)
    · exact hrest

/-- The token is where its position says: behind so many line feeds, and so many characters. -/
def Token.IsAt (t : Token) (source : Text) : Prop :=
  ∃ before after, source = before ++ t.text ++ after ∧ t.text ≠ [] ∧ t.pos = .behind before

theorem Scan.isAt (h : t ∈ (Scan.ofText source).tokens) : t.IsAt source := by
  obtain ⟨before, after, hps, hpos⟩ := of_mem_tokensFrom h
  refine ⟨coveredText before, coveredText after ++ (pieces source).2, ?_,
    pieces_ne_nil source ⟨.token t.kind, t.text⟩ (by simp [hps]), ?_⟩
  · have hsource := pieces_append source
    rw [hps] at hsource
    simpa [coveredText] using hsource.symm
  · rw [hpos, Position.start_after]

theorem Scan.tokens_pairwise (source : Text) :
    (Scan.ofText source).tokens.Pairwise fun t u => t.pos.Precedes u.pos :=
  tokensFrom_pairwise (pieces_ne_nil source)

end SliceIdl
