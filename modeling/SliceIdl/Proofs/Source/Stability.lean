import Mathlib.Data.List.TakeWhile
import SliceIdl.Proofs.Source.FirstPiece

/-!
# Patterns and what follows

What a pattern takes does not depend on the text far behind it. A steady pattern takes from the
front of a text what it takes from the whole, and one that avoids the characters with which layout
starts sees the end of the text in them.
-/

set_option autoImplicit false

namespace SliceIdl

namespace Text

variable {p : Char → Bool} {u v w : Text}

theorem HeadNot.append_of_ne_nil (h : HeadNot p u) (hu : u ≠ []) : HeadNot p (u ++ v) := by
  obtain ⟨c, u, rfl⟩ := List.exists_cons_of_ne_nil hu
  exact headNot_cons.2 (headNot_cons.1 h)

theorem HeadNot.replace (h : HeadNot p (u ++ w)) (hv : HeadNot p v) : HeadNot p (u ++ v) := by
  cases u with
  | nil => exact hv
  | cons c u => exact headNot_cons.2 (headNot_cons.1 h)

theorem HeadNot.of_append (h : HeadNot p (u ++ w)) : HeadNot p u := by
  simpa using h.replace headNot_nil

theorem headNot_dropWhile (p : Char → Bool) (t : Text) : HeadNot p (t.dropWhile p) := by
  induction t with
  | nil => exact headNot_nil
  | cons c t ih =>
    cases hc : p c with
    | true => rwa [List.dropWhile_cons_of_pos hc]
    | false => simpa [hc] using headNot_cons.2 hc

end Text

namespace Pattern
open Text

variable {a b : Pattern} {p : Char → Bool} {l r t u v w x : Text}

theorem Takes.of_split (h : a.split? t = some (l, r)) : t = l ++ r ∧ a.Takes l r := by
  have ht := split?_append h
  exact ⟨ht.symm, by rw [Takes, ht, h]⟩

theorem takes_one_iff : (one p).Takes l r ↔ ∃ c, l = [c] ∧ p c := by
  constructor
  · intro h
    cases l with
    | nil => exact absurd rfl (split?_ne_nil rfl h)
    | cons c l =>
      rw [Takes, List.cons_append, split?] at h
      split at h
      · next hc =>
        simp only [Option.some.injEq, Prod.mk.injEq, List.cons.injEq, true_and] at h
        exact ⟨c, by rw [← h.1], hc⟩
      · cases h
  · rintro ⟨c, rfl, hc⟩
    exact takes_one hc

theorem takes_run_iff : (run p).Takes l r ↔ (∀ c ∈ l, p c) ∧ HeadNot p r := by
  constructor
  · intro h
    rw [Takes, split?, Option.some.injEq, Prod.mk.injEq] at h
    constructor
    · intro c hc
      rw [← h.1] at hc
      exact List.mem_takeWhile_imp hc
    · rw [← h.2]
      exact headNot_dropWhile p _
  · rintro ⟨hl, hr⟩
    exact takes_run hl hr

theorem takes_word_iff : (word w).Takes l r ↔ l = w := by
  constructor
  · intro h
    rw [Takes, split?, Option.map_eq_some_iff] at h
    obtain ⟨_, _, h⟩ := h
    cases h
    rfl
  · rintro rfl
    exact takes_word

theorem takes_seq_iff : (seq a b).Takes l r ↔
    ∃ m n, l = m ++ n ∧ a.Takes m (n ++ r) ∧ b.Takes n r := by
  constructor
  · intro h
    simp only [Takes, split?, Option.bind_eq_bind, Option.bind_eq_some_iff, Option.pure_def,
      Option.some.injEq, Prod.mk.injEq] at h
    obtain ⟨⟨m, t⟩, ha, ⟨n, r'⟩, hb, rfl, rfl⟩ := h
    obtain ⟨-, ha⟩ := Takes.of_split ha
    obtain ⟨rfl, hb⟩ := Takes.of_split hb
    exact ⟨m, n, rfl, ha, hb⟩
  · rintro ⟨m, n, rfl, ha, hb⟩
    exact ha.seq hb

theorem takes_either_iff : (either a b).Takes l r ↔
    a.Takes l r ∨ a.split? (l ++ r) = none ∧ b.Takes l r := by
  rw [Takes, Takes, Takes, split?]
  cases a.split? (l ++ r) <;> simp

theorem takes_maybe_iff : (maybe a).Takes l r ↔ a.Takes l r ∨ l = [] ∧ a.split? r = none := by
  constructor
  · intro h
    rw [Takes, split?] at h
    split at h
    · next s hs => exact .inl (hs.trans h)
    · next hn =>
      simp only [Option.some.injEq, Prod.mk.injEq] at h
      exact .inr ⟨h.1.symm, by rwa [h.2] at hn⟩
  · rintro (h | ⟨rfl, h⟩)
    · exact h.maybe
    · exact takes_maybe_nil h

theorem takes_many1_iff :
    (many1 p).Takes l r ↔ l ≠ [] ∧ (∀ c ∈ l, p c) ∧ HeadNot p r := by
  constructor
  · intro h
    obtain ⟨_, n, rfl, hm, hn⟩ := takes_seq_iff.1 h
    obtain ⟨c, rfl, hc⟩ := takes_one_iff.1 hm
    obtain ⟨hn, hr⟩ := takes_run_iff.1 hn
    exact ⟨by simp, by simpa [hc] using hn, hr⟩
  · rintro ⟨hne, hl, hr⟩
    exact takes_many1 hl hne hr

theorem takes_char_iff {c : Char} : (char c).Takes l r ↔ l = [c] := by
  rw [char, takes_one_iff]
  simp

theorem takes_char_seq_iff {c : Char} :
    (seq (char c) b).Takes l r ↔ ∃ m, l = c :: m ∧ b.Takes m r := by
  constructor
  · intro h
    obtain ⟨_, m, rfl, hc, hm⟩ := takes_seq_iff.1 h
    obtain rfl := takes_char_iff.1 hc
    exact ⟨m, rfl, hm⟩
  · rintro ⟨m, rfl, hm⟩
    exact Takes.seq (l := [c]) takes_char hm

theorem takes_word_seq_iff : (seq (word w) b).Takes l r ↔ ∃ m, l = w ++ m ∧ b.Takes m r := by
  constructor
  · intro h
    obtain ⟨_, m, rfl, hw, hm⟩ := takes_seq_iff.1 h
    obtain rfl := takes_word_iff.1 hw
    exact ⟨m, rfl, hm⟩
  · rintro ⟨m, rfl, hm⟩
    exact takes_word.seq hm

def breakers : Text :=
  [' ', '\t', '\x0c', '\r', '\n', '/', '#']

/-- The text has ended or goes on with layout. -/
def Breaks (t : Text) : Prop :=
  ∀ c ∈ t.head?, c ∈ breakers

theorem breaks_nil : Breaks [] := by
  simp [Breaks]

theorem breaks_cons {c : Char} : Breaks (c :: t) ↔ c ∈ breakers := by
  simp [Breaks]

/-- Whether no part of the pattern takes a character with which layout starts. -/
def avoids : Pattern → Bool
  | one p | run p => breakers.all fun c => !p c
  | word w => breakers.all fun c => !w.contains c
  | seq a b | either a b => a.avoids && b.avoids
  | maybe a => a.avoids
  | wordEnd | literalBody | through _ => false

theorem Takes.notMem (ha : a.avoids) (h : a.Takes l r) : ∀ c ∈ breakers, c ∉ l := by
  intro c hc
  induction a generalizing l r with
  | one p =>
    obtain ⟨d, rfl, hd⟩ := takes_one_iff.1 h
    have hpc : p c = false := by simpa using List.all_eq_true.1 ha c hc
    rw [List.mem_singleton]
    rintro rfl
    simp [hd] at hpc
  | run p =>
    have hpc : p c = false := by simpa using List.all_eq_true.1 ha c hc
    intro hmem
    simp [(takes_run_iff.1 h).1 c hmem] at hpc
  | word w =>
    rw [takes_word_iff.1 h]
    simpa using List.all_eq_true.1 ha c hc
  | seq a b iha ihb =>
    rw [avoids, Bool.and_eq_true] at ha
    obtain ⟨m, n, rfl, hm, hn⟩ := takes_seq_iff.1 h
    rw [List.mem_append, not_or]
    exact ⟨iha ha.1 hm, ihb ha.2 hn⟩
  | either a b iha ihb =>
    rw [avoids, Bool.and_eq_true] at ha
    rcases takes_either_iff.1 h with hl | ⟨-, hr⟩
    · exact iha ha.1 hl
    · exact ihb ha.2 hr
  | maybe a iha =>
    rcases takes_maybe_iff.1 h with hl | ⟨rfl, -⟩
    · exact iha ha hl
    · exact List.not_mem_nil
  | _ => cases ha

theorem after?_append_of_breaks (hw : breakers.all fun c => !w.contains c) (hv : Breaks v) :
    after? w (x ++ v) = (after? w x).map (· ++ v) := by
  induction w generalizing x with
  | nil => simp [after?]
  | cons d w ih =>
    have hd : breakers.all (fun c => !w.contains c) = true := by
      simp only [List.all_eq_true, List.contains_cons, Bool.not_eq_true', Bool.or_eq_false_iff]
        at hw ⊢
      exact fun c hc => (hw c hc).2
    cases x with
    | nil =>
      cases v with
      | nil => rfl
      | cons c v =>
        have hc := List.all_eq_true.1 hw c (breaks_cons.1 hv)
        have hne : d ≠ c := by
          rintro rfl
          simp at hc
        simp [after?, hne]
    | cons c x =>
      by_cases hdc : d = c
      · simp [after?, hdc, ih hd]
      · simp [after?, hdc]

/-- In front of layout a pattern that avoids it takes what it takes at the end of the text. -/
theorem split?_append_of_breaks (ha : a.avoids) (hv : Breaks v) :
    a.split? (x ++ v) = (a.split? x).map fun s => (s.1, s.2 ++ v) := by
  have hrefuse : ∀ {p : Char → Bool}, breakers.all (fun c => !p c) → HeadNot p v := by
    intro p hp
    cases v with
    | nil => exact headNot_nil
    | cons c v => simpa [headNot_cons] using List.all_eq_true.1 hp c (breaks_cons.1 hv)
  induction a generalizing x with
  | one p =>
    cases x with
    | nil => exact one_eq_none (hrefuse ha)
    | cons c x => by_cases hc : p c <;> simp [split?, hc]
  | run p =>
    have hr := hrefuse ha
    simp only [split?, Option.map_some, Option.some.injEq, Prod.mk.injEq]
    induction x with
    | nil =>
      exact ⟨takeWhile_append (l := []) (by simp) hr, dropWhile_append (l := []) (by simp) hr⟩
    | cons c x ih => by_cases hc : p c <;> simp [hc, ih]
  | word w =>
    rw [split?, split?, after?_append_of_breaks ha hv]
    simp [Function.comp_def]
  | seq a b iha ihb =>
    rw [avoids, Bool.and_eq_true] at ha
    rw [split?, split?, iha ha.1]
    cases a.split? x with
    | none => rfl
    | some s =>
      simp only [Option.map_some, Option.bind_eq_bind, Option.bind_some, ihb ha.2]
      cases b.split? s.2 <;> simp
  | either a b iha ihb =>
    rw [avoids, Bool.and_eq_true] at ha
    rw [split?, split?, iha ha.1, ihb ha.2]
    cases a.split? x <;> rfl
  | maybe a iha =>
    rw [split?, split?, iha ha]
    cases a.split? x <;> rfl
  | _ => cases ha

def total : Pattern → Bool
  | run _ | maybe _ => true
  | seq a b => a.total && b.total
  | _ => false

/-- Whether the pattern decides where to stop by the next character alone. -/
def prompt : Pattern → Bool
  | one _ | run _ | word _ | maybe (one _) => true
  | seq a b => a.prompt && b.prompt
  | _ => false

/-- Whether the pattern takes from the front of a text what it takes from the whole. Where the first
part of a sequence takes less than before, the second one must not refuse for that reason. -/
def steady : Pattern → Bool
  | one _ | run _ | word _ => true
  | seq a b => a.steady && b.steady && (b.total || a.prompt && b.productive)
  | either a b => a.steady && b.steady
  | maybe a => a.steady
  | wordEnd | literalBody | through _ => false

theorem exists_split_of_total (h : a.total) (t : Text) : ∃ l r, a.split? t = some (l, r) := by
  induction a generalizing t with
  | run p => exact ⟨_, _, rfl⟩
  | maybe a =>
    rw [split?]
    split
    · next s _ => exact ⟨s.1, s.2, rfl⟩
    · exact ⟨_, _, rfl⟩
  | seq a b iha ihb =>
    rw [total, Bool.and_eq_true] at h
    obtain ⟨l, t', ha⟩ := iha h.1 t
    obtain ⟨m, r, hb⟩ := ihb h.2 t'
    exact ⟨l ++ m, r, by simp [split?, ha, hb]⟩
  | _ => cases h

theorem Takes.append_of_prompt (h : a.Takes l r) (ha : a.prompt) (hr : r ≠ []) :
    a.Takes l (r ++ v) := by
  induction a generalizing l r with
  | one p => exact takes_one_iff.2 (takes_one_iff.1 h)
  | run p =>
    obtain ⟨hl, hp⟩ := takes_run_iff.1 h
    exact takes_run hl (hp.append_of_ne_nil hr)
  | word w => exact takes_word_iff.2 (takes_word_iff.1 h)
  | seq a b iha ihb =>
    rw [prompt, Bool.and_eq_true] at ha
    obtain ⟨m, n, rfl, hm, hn⟩ := takes_seq_iff.1 h
    have hmid := iha hm ha.1 (List.append_ne_nil_of_right_ne_nil n hr)
    rw [List.append_assoc] at hmid
    exact hmid.seq (ihb hn ha.2 hr)
  | maybe a =>
    cases a with
    | one p =>
      rcases takes_maybe_iff.1 h with h | ⟨rfl, hn⟩
      · exact (takes_one_iff.2 (takes_one_iff.1 h)).maybe
      · obtain ⟨c, r, rfl⟩ := List.exists_cons_of_ne_nil hr
        refine takes_maybe_nil (one_eq_none (headNot_cons.2 ?_))
        by_cases hc : p c <;> simp_all [split?]
    | _ => cases ha
  | _ => cases ha

theorem seq_eq_none_iff :
    (seq a b).split? t = none ↔ ∀ l r, a.split? t = some (l, r) → b.split? r = none := by
  rw [split?]
  cases ha : a.split? t with
  | none => simp
  | some s => cases hb : b.split? s.2 <;> simp [Prod.ext_iff, hb]

theorem either_eq_none_iff :
    (either a b).split? t = none ↔ a.split? t = none ∧ b.split? t = none := by
  rw [split?]
  cases a.split? t <;> simp

theorem split?_nil_of_productive (h : a.productive) : a.split? [] = none := by
  cases hs : a.split? [] with
  | none => rfl
  | some s => exact absurd (List.append_eq_nil_iff.1 (split?_append hs)).1 (split?_ne_nil h hs)

theorem split?_eq_none_of_append (ha : a.steady) (h : a.split? (x ++ v) = none) :
    a.split? x = none := by
  induction a generalizing x with
  | one p => cases x <;> simp_all [split?]
  | run p => cases h
  | word w =>
    cases hs : (word w).split? x with
    | none => rfl
    | some s =>
      obtain ⟨rfl, hl⟩ := Takes.of_split hs
      have htakes : (word w).Takes s.1 (s.2 ++ v) := takes_word_iff.2 (takes_word_iff.1 hl)
      rw [List.append_assoc, htakes] at h
      cases h
  | seq a b iha ihb =>
    simp only [steady, Bool.and_eq_true, Bool.or_eq_true] at ha
    obtain ⟨⟨ha, hb⟩, hab⟩ := ha
    rw [seq_eq_none_iff] at h ⊢
    intro l r hs
    rcases hab with htotal | ⟨hprompt, hproductive⟩
    · -- What the first part takes may change with the text, but the second part takes the rest.
      cases hmore : a.split? (x ++ v) with
      | none => simp [iha ha hmore] at hs
      | some s =>
        obtain ⟨m, n, hn⟩ := exists_split_of_total htotal s.2
        simp [h _ _ hmore] at hn
    · by_cases hr : r = []
      · rw [hr]
        exact split?_nil_of_productive hproductive
      · obtain ⟨rfl, hl⟩ := Takes.of_split hs
        have hmore := hl.append_of_prompt (v := v) hprompt hr
        rw [Takes, ← List.append_assoc] at hmore
        exact ihb hb (h _ _ hmore)
  | either a b iha ihb =>
    rw [steady, Bool.and_eq_true] at ha
    rw [either_eq_none_iff] at h ⊢
    exact ⟨iha ha.1 h.1, ihb ha.2 h.2⟩
  | maybe a =>
    rw [split?] at h
    split at h <;> cases h
  | _ => cases ha

theorem Takes.of_append (ha : a.steady) (h : a.Takes l (u ++ v)) : a.Takes l u := by
  induction a generalizing l u with
  | one p => exact takes_one_iff.2 (takes_one_iff.1 h)
  | run p =>
    obtain ⟨hl, hr⟩ := takes_run_iff.1 h
    exact takes_run hl hr.of_append
  | word w => exact takes_word_iff.2 (takes_word_iff.1 h)
  | seq a b iha ihb =>
    simp only [steady, Bool.and_eq_true] at ha
    obtain ⟨m, n, rfl, hm, hn⟩ := takes_seq_iff.1 h
    rw [← List.append_assoc] at hm
    exact (iha ha.1.1 hm).seq (ihb ha.1.2 hn)
  | either a b iha ihb =>
    rw [steady, Bool.and_eq_true] at ha
    rcases takes_either_iff.1 h with hl | ⟨hn, hr⟩
    · exact (iha ha.1 hl).left
    · rw [← List.append_assoc] at hn
      exact .right (split?_eq_none_of_append ha.1 hn) (ihb ha.2 hr)
  | maybe a iha =>
    rcases takes_maybe_iff.1 h with hl | ⟨rfl, hn⟩
    · exact (iha ha hl).maybe
    · exact takes_maybe_nil (split?_eq_none_of_append ha hn)
  | _ => cases ha

theorem Takes.recut (hs : a.steady) (ha : a.avoids) (hv : Breaks v) (h : a.Takes l (u ++ w)) :
    a.Takes l (u ++ v) := by
  have hcut : a.split? (l ++ u) = some (l, u) := h.of_append hs
  rw [Takes, ← List.append_assoc, split?_append_of_breaks ha hv, hcut]
  rfl

theorem split?_eq_none_recut (hs : a.steady) (ha : a.avoids) (hv : Breaks v)
    (h : a.split? (x ++ w) = none) : a.split? (x ++ v) = none := by
  rw [split?_append_of_breaks ha hv, split?_eq_none_of_append hs h]
  rfl

end Pattern

end SliceIdl
