import SliceIdl.Source.Terminal

/-!
# Cutting makes progress

What a pattern takes and what it leaves make up the text. A productive pattern takes at least one
character, and all terminals are productive, so every piece leaves less than there was.
-/

set_option autoImplicit false

namespace SliceIdl

namespace Pattern

def productive : Pattern → Bool
  | one _ => true
  | word w | through w => !w.isEmpty
  | seq a b => a.productive || b.productive
  | either a b => a.productive && b.productive
  | run _ | maybe _ | wordEnd | literalBody => false

theorem literalSplit_append (t : Text) : (literalSplit t).1 ++ (literalSplit t).2 = t := by
  fun_induction literalSplit t <;> simp_all

theorem throughSplit_append {w t l r : Text} (h : throughSplit w t = some (l, r)) :
    l ++ r = t := by
  induction t generalizing l with
  | nil =>
    simp only [throughSplit, Option.map_eq_some_iff, Prod.mk.injEq] at h
    obtain ⟨r', hr, rfl, rfl⟩ := h
    exact Text.append_eq_of_after? hr
  | cons c t ih =>
    rw [throughSplit] at h
    split at h
    · next r' hr =>
      simp only [Option.some.injEq, Prod.mk.injEq] at h
      obtain ⟨rfl, rfl⟩ := h
      exact Text.append_eq_of_after? hr
    · simp only [Option.map_eq_some_iff, Prod.mk.injEq] at h
      obtain ⟨⟨l', r'⟩, hr, rfl, rfl⟩ := h
      simp [ih hr]

theorem split?_append {p : Pattern} {t l r : Text} (h : p.split? t = some (l, r)) :
    l ++ r = t := by
  induction p generalizing t l r with
  | one p =>
    cases t with
    | nil => simp [split?] at h
    | cons c t =>
      simp only [split?] at h
      split at h
      · simp only [Option.some.injEq, Prod.mk.injEq] at h
        simp [← h.1, ← h.2]
      · simp at h
  | run p =>
    simp only [split?, Option.some.injEq, Prod.mk.injEq] at h
    rw [← h.1, ← h.2, List.takeWhile_append_dropWhile]
  | word w =>
    simp only [split?, Option.map_eq_some_iff, Prod.mk.injEq] at h
    obtain ⟨r', hr, rfl, rfl⟩ := h
    exact Text.append_eq_of_after? hr
  | seq a b iha ihb =>
    simp only [split?, Option.bind_eq_bind, Option.bind_eq_some_iff, Option.pure_def,
      Option.some.injEq, Prod.mk.injEq] at h
    obtain ⟨⟨l₁, t₁⟩, ha, ⟨l₂, t₂⟩, hb, rfl, rfl⟩ := h
    rw [List.append_assoc, ihb hb, iha ha]
  | either a b iha ihb =>
    rw [split?] at h
    split at h
    · next ha => exact iha (ha.trans h)
    · exact ihb h
  | maybe a iha =>
    rw [split?] at h
    split at h
    · next ha => exact iha (ha.trans h)
    · simp_all
  | wordEnd =>
    simp only [split?] at h
    split at h <;> simp_all
  | literalBody =>
    simp only [split?, Option.some.injEq] at h
    have := literalSplit_append t
    rw [h] at this
    exact this
  | through w => exact throughSplit_append h

theorem throughSplit_ne_nil {w t l r : Text} (hw : w ≠ []) (h : throughSplit w t = some (l, r)) :
    l ≠ [] := by
  cases t with
  | nil =>
    simp only [throughSplit, Option.map_eq_some_iff, Prod.mk.injEq] at h
    obtain ⟨_, _, rfl, _⟩ := h
    exact hw
  | cons c t =>
    rw [throughSplit] at h
    split at h
    · simp only [Option.some.injEq, Prod.mk.injEq] at h
      exact h.1 ▸ hw
    · simp only [Option.map_eq_some_iff, Prod.mk.injEq] at h
      obtain ⟨_, _, rfl, _⟩ := h
      simp

theorem split?_ne_nil {p : Pattern} {t l r : Text} (hp : p.productive)
    (h : p.split? t = some (l, r)) : l ≠ [] := by
  induction p generalizing t l r with
  | one p =>
    cases t with
    | nil => simp [split?] at h
    | cons c t =>
      simp only [split?] at h
      split at h
      · simp only [Option.some.injEq, Prod.mk.injEq] at h
        simp [← h.1]
      · simp at h
  | word w =>
    simp only [split?, Option.map_eq_some_iff, Prod.mk.injEq] at h
    obtain ⟨_, _, rfl, _⟩ := h
    simpa [productive] using hp
  | seq a b iha ihb =>
    simp only [split?, Option.bind_eq_bind, Option.bind_eq_some_iff, Option.pure_def,
      Option.some.injEq, Prod.mk.injEq] at h
    obtain ⟨⟨l₁, t₁⟩, ha, ⟨l₂, t₂⟩, hb, rfl, rfl⟩ := h
    rw [productive, Bool.or_eq_true] at hp
    rcases hp with hp | hp
    · exact List.append_ne_nil_of_left_ne_nil (iha hp ha) _
    · exact List.append_ne_nil_of_right_ne_nil _ (ihb hp hb)
  | either a b iha ihb =>
    rw [productive, Bool.and_eq_true] at hp
    rw [split?] at h
    split at h
    · next ha => exact iha hp.1 (ha.trans h)
    · exact ihb hp.2 h
  | through w => exact throughSplit_ne_nil (by simpa [productive] using hp) h
  | _ => simp [productive] at hp

theorem split?_length {p : Pattern} {t l r : Text} (hp : p.productive)
    (h : p.split? t = some (l, r)) : r.length < t.length := by
  have := List.length_pos_iff.2 (split?_ne_nil hp h)
  rw [← split?_append h, List.length_append]
  omega

end Pattern

theorem terminals_productive : ∀ t ∈ terminals, t.2.productive = true := by
  decide

theorem Piece.first?_eq_some {t r : Text} {p : Piece} (h : Piece.first? t = some (p, r)) :
    ∃ terminal ∈ terminals, terminal.2.split? t = some (p.text, r) ∧
      p.kind = terminal.1.refined p.text := by
  obtain ⟨terminal, hmem, hsome⟩ := List.exists_of_findSome?_eq_some h
  simp only [Option.map_eq_some_iff, Prod.mk.injEq] at hsome
  obtain ⟨⟨l, r'⟩, hs, rfl, rfl⟩ := hsome
  exact ⟨terminal, hmem, hs, rfl⟩

theorem Piece.first?_append {t r : Text} {p : Piece} (h : Piece.first? t = some (p, r)) :
    p.text ++ r = t := by
  obtain ⟨_, _, hs, _⟩ := Piece.first?_eq_some h
  exact Pattern.split?_append hs

theorem Piece.first?_ne_nil {t r : Text} {p : Piece} (h : Piece.first? t = some (p, r)) :
    p.text ≠ [] := by
  obtain ⟨terminal, hmem, hs, _⟩ := Piece.first?_eq_some h
  exact Pattern.split?_ne_nil (terminals_productive terminal hmem) hs

theorem Piece.first?_length {t r : Text} {p : Piece} (h : Piece.first? t = some (p, r)) :
    r.length < t.length := by
  obtain ⟨terminal, hmem, hs, _⟩ := Piece.first?_eq_some h
  exact Pattern.split?_length (terminals_productive terminal hmem) hs

end SliceIdl
