import SliceIdl.Compile.Artifact
import SliceIdl.Proofs.Document.Floats

/-!
# What a document is rendered as

A parsed source is rendered as a JSON text if and only if none of its float literals is too large
for a binary64 number. The text of one that is too large has the word for infinity, which no JSON
text has outside of its strings.
-/

set_option autoImplicit false

namespace SliceIdl

theorem Document.render?_eq_some {d : Document} {t : Text} (h : d.render? = some t) :
    t = Json.print .indented 0 d.toJson := by
  rw [render?, Json.render?_eq] at h
  split at h
  · cases h
  · cases h
    rfl

/-- What a parsed source is rendered as is a JSON text unless one of its float literals is read as
infinity. -/
theorem Document.render_isText {source : Text} {d : Document} {t : Text}
    (hp : Document.parse source = .ok d) (hr : d.render? = some t) :
    Json.IsText t ↔ ∀ token ∈ (Scan.ofText source).tokens, token.kind = .float →
      (Literal.float token.text).isInfinite = false := by
  rw [render?_eq_some hr, Json.isText_print_iff Json.Style.indented_isLegal, floats_toJson hp]
  constructor
  · intro h token ht hk
    exact h _ (List.mem_filterMap.2 ⟨token, ht, if_pos hk⟩)
  · intro h x hx
    obtain ⟨token, ht, hfloat⟩ := List.mem_filterMap.1 hx
    rw [Token.float?] at hfloat
    split at hfloat
    · next hk =>
      cases hfloat
      exact h token ht hk
    · cases hfloat

theorem Document.exists_rendered {source t : Text}
    (h : (Document.parse source).toOption.bind Document.render? = some t) :
    ∃ d, Document.parse source = .ok d ∧ d.render? = some t := by
  obtain ⟨d, hd, hr⟩ := Option.bind_eq_some_iff.1 h
  cases hp : Document.parse source with
  | error e =>
    rw [hp] at hd
    cases hd
  | ok d' =>
    rw [hp] at hd
    cases hd
    exact ⟨d, rfl, hr⟩

namespace Overflowing

def source : Text :=
  "module M \x7b const double x = 1e999; \x7d".toList

theorem rendered : ((Document.parse source).toOption.bind Document.render?).any
    (fun t => 'I' ∈ Json.outside false t) := by
  decide +kernel

end Overflowing

/-- A source can be rendered as a text that is not JSON. -/
theorem Document.not_always_isText :
    ¬ ∀ (source : Text) (d : Document) (t : Text), Document.parse source = .ok d →
      d.render? = some t → Json.IsText t := by
  intro h
  obtain ⟨t, ht, hshown⟩ := (Option.any_eq_true _ _).1 Overflowing.rendered
  obtain ⟨d, hd, hr⟩ := exists_rendered ht
  exact (h _ d t hd hr).shows.mem_iff.1 (of_decide_eq_true hshown)

namespace LoneSurrogate

/-- A small number and a lone surrogate. -/
def source : Text :=
  "module M \x7b const double x = -2.5e-7; const string s = \"\\ud800\"; \x7d".toList

theorem rendered : ((Document.parse source).toOption.bind Document.render?).any
      (fun t => "-2.5e-07".toList <:+: t ∧ "\"\\ud800\"".toList <:+: t) ∧
    ∀ token ∈ (Scan.ofText source).tokens, token.kind = .float →
      (Literal.float token.text).isInfinite = false := by
  decide +kernel

end LoneSurrogate

theorem Document.render_isText_surrogate : ∃ d t, Document.parse LoneSurrogate.source = .ok d ∧
    d.render? = some t ∧ Json.IsText t ∧ "-2.5e-07".toList <:+: t ∧
      "\"\\ud800\"".toList <:+: t := by
  obtain ⟨hrendered, hfloats⟩ := LoneSurrogate.rendered
  obtain ⟨t, ht, hshown⟩ := (Option.any_eq_true _ _).1 hrendered
  obtain ⟨d, hd, hr⟩ := exists_rendered ht
  exact ⟨d, t, hd, hr, (render_isText hd hr).2 hfloats, of_decide_eq_true hshown⟩

end SliceIdl
