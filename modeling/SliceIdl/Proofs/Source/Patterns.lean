import SliceIdl.Proofs.Source.Lexemes

/-!
# What patterns take

A pattern takes a text if it takes just that text from the front of what is there. This passes from
the parts of a pattern to the whole. Most patterns refuse a text because of its first character, so
the first terminal that fits is sought among those that can start with that character.
-/

set_option autoImplicit false

namespace SliceIdl

namespace Text

theorem headNot_nil {p : Char → Bool} : HeadNot p [] := rfl

theorem headNot_cons {p : Char → Bool} {c : Char} {t : Text} :
    HeadNot p (c :: t) ↔ p c = false := by
  simp [HeadNot]

theorem HeadNot.mono {p q : Char → Bool} {t : Text} (h : HeadNot p t)
    (hpq : ∀ c, q c = true → p c = true) : HeadNot q t := by
  cases t with
  | nil => exact headNot_nil
  | cons c t =>
    rw [headNot_cons] at h ⊢
    exact Bool.eq_false_iff.2 fun hq => by simp [hpq c hq] at h

theorem HeadNot.append {p : Char → Bool} {l r : Text} (hl : ∀ c ∈ l, p c = false)
    (hr : HeadNot p r) : HeadNot p (l ++ r) := by
  cases l with
  | nil => exact hr
  | cons c l => exact headNot_cons.2 (hl c List.mem_cons_self)

theorem headNot_append_of_ne_nil {p : Char → Bool} {l r : Text} (hne : l ≠ [])
    (hl : ∀ c ∈ l, p c = false) : HeadNot p (l ++ r) := by
  obtain ⟨c, l, rfl⟩ := List.exists_cons_of_ne_nil hne
  exact headNot_cons.2 (hl c List.mem_cons_self)

theorem takeWhile_append {p : Char → Bool} {l r : Text} (hl : ∀ c ∈ l, p c)
    (hr : HeadNot p r) : (l ++ r).takeWhile p = l := by
  rw [List.takeWhile_append_of_pos hl]
  cases r with
  | nil => simp
  | cons c r => simp [headNot_cons.1 hr]

theorem dropWhile_append {p : Char → Bool} {l r : Text} (hl : ∀ c ∈ l, p c)
    (hr : HeadNot p r) : (l ++ r).dropWhile p = r := by
  rw [List.dropWhile_append_of_pos hl]
  cases r with
  | nil => rfl
  | cons c r => simp [headNot_cons.1 hr]

end Text

namespace Pattern
open Text

variable {a b : Pattern} {p : Char → Bool} {c : Char} {l m r t w : Text}

def Takes (p : Pattern) (l r : Text) : Prop :=
  p.split? (l ++ r) = some (l, r)

theorem takes_one (h : p c) : (one p).Takes [c] r := by
  simp [Takes, split?, h]

theorem takes_char : (char c).Takes [c] r :=
  takes_one (by simp)

theorem takes_run (hl : ∀ c ∈ l, p c) (hr : HeadNot p r) : (run p).Takes l r := by
  rw [Takes, split?, takeWhile_append hl hr, dropWhile_append hl hr]

theorem takes_word : (word w).Takes w r := by
  simp [Takes, split?, after?_append]

theorem Takes.seq (ha : a.Takes l (m ++ r)) (hb : b.Takes m r) : (seq a b).Takes (l ++ m) r := by
  rw [Takes] at ha hb
  simp [Takes, split?, ha, hb]

theorem Takes.left (h : a.Takes l r) : (either a b).Takes l r := by
  rw [Takes] at h
  simp [Takes, split?, h]

theorem Takes.right (ha : a.split? (l ++ r) = none) (hb : b.Takes l r) :
    (either a b).Takes l r := by
  rw [Takes] at hb
  simp [Takes, split?, ha, hb]

theorem Takes.maybe (h : a.Takes l r) : (maybe a).Takes l r := by
  rw [Takes] at h
  simp [Takes, split?, h]

theorem takes_maybe_nil (h : a.split? r = none) : (maybe a).Takes [] r := by
  simp [Takes, split?, h]

theorem takes_wordEnd (h : HeadNot isWordCharacter r) : wordEnd.Takes [] r := by
  cases r with
  | nil => rfl
  | cons c r => simp [Takes, split?, headNot_cons.1 h]

theorem takes_many1 (hl : ∀ c ∈ l, p c) (hne : l ≠ []) (hr : HeadNot p r) :
    (many1 p).Takes l r := by
  obtain ⟨c, l, rfl⟩ := List.exists_cons_of_ne_nil hne
  exact (takes_one (hl c List.mem_cons_self)).seq
    (takes_run (fun d hd => hl d (List.mem_cons_of_mem c hd)) hr)

theorem seq_eq_none_left (h : a.split? t = none) : (seq a b).split? t = none := by
  simp [split?, h]

theorem Takes.seq_eq_none (ha : a.Takes l r) (hb : b.split? r = none) :
    (Pattern.seq a b).split? (l ++ r) = none := by
  rw [Takes] at ha
  simp [split?, ha, hb]

theorem either_eq_none (ha : a.split? t = none) (hb : b.split? t = none) :
    (either a b).split? t = none := by
  simp [split?, ha, hb]

def starts : Pattern → Char → Bool
  | one p, c | run p, c => p c
  | word [], _ | wordEnd, _ => false
  | word (d :: _), c => c == d
  | seq a b, c => a.starts c || !a.productive && b.starts c
  | either a b, c => a.starts c || b.starts c
  | maybe a, c => a.starts c
  | literalBody, _ | through _, _ => true

theorem split?_of_not_starts (h : a.starts c = false) :
    a.split? (c :: t) = none ∨ a.split? (c :: t) = some ([], c :: t) := by
  induction a with
  | one p => simp_all [starts, split?]
  | run p => simp_all [starts, split?]
  | word w =>
    cases w with
    | nil => simp [split?, after?]
    | cons d w =>
      have hne : d ≠ c := fun e => by simp [starts, e] at h
      simp [split?, after?, hne]
  | seq a b iha ihb =>
    simp only [starts, Bool.or_eq_false_iff, Bool.and_eq_false_iff, Bool.not_eq_eq_eq_not,
      Bool.not_false] at h
    rcases iha h.1 with hn | hs
    · exact .inl (seq_eq_none_left hn)
    have hb := ihb (h.2.resolve_left fun hp => split?_ne_nil hp hs rfl)
    rcases hb with hb | hb <;> simp [split?, hs, hb]
  | either a b iha ihb =>
    simp only [starts, Bool.or_eq_false_iff] at h
    rcases iha h.1 with hn | hs
    · simpa [split?, hn] using ihb h.2
    · simp [split?, hs]
  | maybe a iha =>
    rcases iha h with hn | hs
    · simp [split?, hn]
    · simp [split?, hs]
  | wordEnd =>
    simp only [split?]
    split <;> simp
  | literalBody => simp [starts] at h
  | through w => simp [starts] at h

theorem eq_none_of_not_starts (hp : a.productive) (h : a.starts c = false) :
    a.split? (c :: t) = none :=
  (split?_of_not_starts h).resolve_right fun hs => split?_ne_nil hp hs rfl

theorem one_eq_none (h : HeadNot p r) : (one p).split? r = none := by
  cases r with
  | nil => rfl
  | cons c r => exact eq_none_of_not_starts rfl (headNot_cons.1 h)

end Pattern

open Pattern

theorem findSome?_filter {α β : Type} {f : α → Option β} {p : α → Bool} {l : List α}
    (h : ∀ x ∈ l, p x = false → f x = none) : (l.filter p).findSome? f = l.findSome? f := by
  induction l with
  | nil => rfl
  | cons x l ih =>
    have ih := ih fun y hy => h y (List.mem_cons_of_mem x hy)
    cases hx : p x with
    | true => simp only [List.filter_cons, hx, if_true, List.findSome?_cons, ih]
    | false =>
      rw [List.filter_cons_of_neg (by simp [hx]), List.findSome?_cons,
        h x List.mem_cons_self hx, ih]

def candidates (c : Char) : List (PieceKind × Pattern) :=
  terminals.filter fun k => k.2.starts c

theorem Piece.first?_cons (c : Char) (t : Text) :
    Piece.first? (c :: t) = (candidates c).findSome? fun terminal =>
      (terminal.2.split? (c :: t)).map fun r => (⟨terminal.1.refined r.1, r.1⟩, r.2) :=
  .symm <| findSome?_filter fun k hk hc => by
    rw [eq_none_of_not_starts (terminals_productive k hk) hc, Option.map_none]

theorem Piece.first?_of_takes {c : Char} {l r : Text} {kind : PieceKind} {p : Pattern}
    (refusing rest : List (PieceKind × Pattern))
    (hc : candidates c = refusing ++ (kind, p) :: rest)
    (hn : ∀ k ∈ refusing, k.2.split? (c :: l ++ r) = none) (hp : p.Takes (c :: l) r) :
    Piece.first? (c :: l ++ r) = some (⟨kind.refined (c :: l), c :: l⟩, r) := by
  rw [Takes] at hp
  rw [List.cons_append, Piece.first?_cons, hc, List.findSome?_append, ← List.cons_append,
    List.findSome?_eq_none_iff.2 fun k hk => by rw [hn k hk, Option.map_none]]
  simp only [Option.none_or, List.findSome?_cons, hp, Option.map_some]

end SliceIdl
