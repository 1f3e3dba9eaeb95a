import SliceIdl.Proofs.Grammar.Soundness

/-!
# Parsers that stop at the first token in the way

A parser is predictive if it never reads on when no continuation can be accepted any more. What it
has taken when it stops is the front of something that can be read, and it stops there whatever
comes behind the next token. This passes from the parts of a parser to the whole.
-/

set_option autoImplicit false

namespace SliceIdl.Grammar

variable {α β : Type} {kind : TokenKind} {more : TokenKind → Bool} {ts us rest taken : List Token}

theorem nextKind_append (h : nextKind us = nextKind rest) :
    nextKind (ts ++ us) = nextKind (ts ++ rest) := by
  cases ts with
  | nil => exact h
  | cons t ts => rfl

namespace Parser

/-- What is spelled by a list of tokens is said by a relation. The next token decides on the outcome
by its kind. -/
structure Predictive (p : Parser α) (spells : α → List Token → Prop) : Prop where
  inhabited : ∃ a ts, spells a ts
  accepts : ∀ {ts a rest}, p ts = .ok (a, rest) → ∃ taken, ts = taken ++ rest ∧ spells a taken
  viable : ∀ {ts rest}, p ts = .error rest →
    ∃ taken a more, ts = taken ++ rest ∧ more ≠ [] ∧ spells a (taken ++ more)
  keeps : ∀ {taken rest a us}, p (taken ++ rest) = .ok (a, rest) → nextKind us = nextKind rest →
    p (taken ++ us) = .ok (a, us)
  refuses : ∀ {taken rest us}, p (taken ++ rest) = .error rest → nextKind us = nextKind rest →
    p (taken ++ us) = .error us

abbrev Predicts (p : Parser α) (f : α → List Token) : Prop :=
  Predictive p fun a ts => f a = ts

variable {p : Parser α} {k : α → Parser β} {g : α → β} {f : α → List Token}
  {spells spells' : α → List Token → Prop} {spells₂ : β → List Token → Prop}

theorem bind_eq_error : (p >>= k) ts = .error rest ↔
    p ts = .error rest ∨ ∃ a mid, p ts = .ok (a, mid) ∧ k a mid = .error rest := by
  rw [bind_apply]
  cases p ts with
  | error e => simp [Except.bind]
  | ok r => simp [Prod.ext_iff, and_assoc]

theorem token_eq_error :
    Parser.token kind ts = .error rest ↔ ts = rest ∧ nextKind ts ≠ some kind := by
  cases ts with
  | nil => simp [Parser.token]
  | cons t ts =>
    have hnext : nextKind (t :: ts) = some t.kind := rfl
    by_cases ht : t.kind = kind <;> simp [Parser.token, hnext, ht]

/-- The parsers have the same outcome on all lists up to a length. -/
def AgreeUpTo (n : Nat) (p q : Parser α) : Prop :=
  ∀ ts, ts.length ≤ n → p ts = q ts

namespace Predictive

theorem mono (hp : Predictive p spells) (h : ∀ a ts, spells a ts → spells' a ts) :
    Predictive p spells' where
  inhabited :=
    let ⟨a, ts, ha⟩ := hp.inhabited
    ⟨a, ts, h a ts ha⟩
  accepts hok :=
    let ⟨taken, hts, ha⟩ := hp.accepts hok
    ⟨taken, hts, h _ taken ha⟩
  viable herror :=
    let ⟨taken, a, more, hts, hmore, ha⟩ := hp.viable herror
    ⟨taken, a, more, hts, hmore, h a _ ha⟩
  keeps := hp.keeps
  refuses := hp.refuses

theorem pure {a : α} (h : spells a []) : Predictive (Pure.pure a) spells where
  inhabited := ⟨a, [], h⟩
  accepts hok := by
    cases hok
    exact ⟨[], rfl, h⟩
  viable herror := by cases herror
  keeps := by
    intro taken rest a' us hok _
    rw [pure_apply] at hok
    obtain ⟨rfl, hrest⟩ : a = a' ∧ taken ++ rest = rest := by simpa using hok
    obtain rfl : taken = [] := by simpa using hrest
    rfl
  refuses herror := by cases herror

theorem refuse {a : α} (hne : ts ≠ []) (h : spells a ts) : Predictive refuse spells where
  inhabited := ⟨a, ts, h⟩
  accepts hok := by cases hok
  viable herror := by
    cases herror
    exact ⟨[], a, ts, rfl, hne, h⟩
  keeps hok := by cases hok
  refuses := by
    intro taken rest us herror _
    obtain rfl : taken = [] := by simpa [Parser.refuse] using herror
    rfl

theorem token : Predicts (token kind) Tok.tokens where
  inhabited := ⟨⟨[], .start⟩, _, rfl⟩
  accepts hok := ⟨_, token_sound hok, rfl⟩
  viable herror := ⟨[], ⟨[], .start⟩, _, (token_eq_error.1 herror).1, List.cons_ne_nil _ _, rfl⟩
  keeps := by
    intro taken rest a us hok _
    have htaken := token_sound hok
    rw [List.append_cancel_right htaken]
    exact token_tokens a
  refuses := by
    intro taken rest us herror hus
    obtain ⟨htaken, hkind⟩ := token_eq_error.1 herror
    obtain rfl : taken = [] := by simpa using htaken
    exact token_eq_error.2 ⟨rfl, by rwa [List.nil_append, hus]⟩

theorem bind (hp : Predictive p spells)
    (hk : ∀ a ts, spells a ts → Predictive (k a) fun b us => spells₂ b (ts ++ us)) :
    Predictive (p >>= k) spells₂ where
  inhabited := by
    obtain ⟨a, ts, ha⟩ := hp.inhabited
    obtain ⟨b, us, hb⟩ := (hk a ts ha).inhabited
    exact ⟨b, ts ++ us, hb⟩
  accepts := by
    intro ts b rest hok
    obtain ⟨a, mid, ha, hb⟩ := bind_eq_ok.1 hok
    obtain ⟨taken, rfl, hspells⟩ := hp.accepts ha
    obtain ⟨taken', rfl, hspells'⟩ := (hk a taken hspells).accepts hb
    exact ⟨taken ++ taken', (List.append_assoc ..).symm, hspells'⟩
  viable := by
    intro ts rest herror
    rcases bind_eq_error.1 herror with ha | ⟨a, mid, ha, hb⟩
    · obtain ⟨taken, a, more, rfl, hmore, hspells⟩ := hp.viable ha
      obtain ⟨b, us, hb⟩ := (hk a _ hspells).inhabited
      refine ⟨taken, b, more ++ us, rfl, by simp [hmore], ?_⟩
      rwa [← List.append_assoc]
    · obtain ⟨taken, rfl, hspells⟩ := hp.accepts ha
      obtain ⟨taken', b, more, rfl, hmore, hspells'⟩ := (hk a taken hspells).viable hb
      refine ⟨taken ++ taken', b, more, (List.append_assoc ..).symm, hmore, ?_⟩
      rwa [List.append_assoc]
  keeps := by
    intro taken rest b us hok hus
    obtain ⟨a, mid, ha, hb⟩ := bind_eq_ok.1 hok
    obtain ⟨first, hfirst, hspells⟩ := hp.accepts ha
    have hk' := hk a first hspells
    obtain ⟨second, rfl, -⟩ := hk'.accepts hb
    obtain rfl : taken = first ++ second := by simpa [← List.append_assoc] using hfirst
    rw [List.append_assoc] at ha ⊢
    exact bind_eq_ok.2 ⟨a, _, hp.keeps ha (nextKind_append hus), hk'.keeps hb hus⟩
  refuses := by
    intro taken rest us herror hus
    rcases bind_eq_error.1 herror with ha | ⟨a, mid, ha, hb⟩
    · exact bind_eq_error.2 (.inl (hp.refuses ha hus))
    · obtain ⟨first, hfirst, hspells⟩ := hp.accepts ha
      have hk' := hk a first hspells
      obtain ⟨second, -, -, rfl, -, -⟩ := hk'.viable hb
      obtain rfl : taken = first ++ second := by simpa [← List.append_assoc] using hfirst
      rw [List.append_assoc] at ha ⊢
      exact bind_eq_error.2 (.inr ⟨a, _, hp.keeps ha (nextKind_append hus), hk'.refuses hb hus⟩)

theorem next {k : Option TokenKind → Parser β} (hk : ∀ n, Predictive (k n) spells₂) :
    Predictive (next >>= k) spells₂ where
  inhabited := (hk none).inhabited
  accepts hok := (hk _).accepts hok
  viable herror := (hk _).viable herror
  keeps := by
    intro taken rest b us hok hus
    rw [bind_apply, next_apply, ok_bind] at hok ⊢
    rw [nextKind_append hus]
    exact (hk _).keeps hok hus
  refuses := by
    intro taken rest us herror hus
    rw [bind_apply, next_apply, ok_bind] at herror ⊢
    rw [nextKind_append hus]
    exact (hk _).refuses herror hus

theorem map (hp : Predictive p spells) (h : ∀ a ts, spells a ts → spells₂ (g a) ts) :
    Predictive (g <$> p) spells₂ := by
  rw [← bind_pure_comp]
  exact hp.bind fun a ts ha => .pure (by simpa using h a ts ha)

theorem of_bound {q : Nat → Parser α} (hq : ∀ n, Predictive (q n) spells)
    (h : ∀ n, AgreeUpTo n p (q n)) : Predictive p spells where
  inhabited := (hq 0).inhabited
  accepts hok := (hq _).accepts ((h _ _ (Nat.le_refl _)).symm.trans hok)
  viable herror := (hq _).viable ((h _ _ (Nat.le_refl _)).symm.trans herror)
  keeps := by
    intro taken rest a us hok hus
    have hn := Nat.le_max_left (taken ++ rest).length (taken ++ us).length
    have hm := Nat.le_max_right (taken ++ rest).length (taken ++ us).length
    rw [h _ _ hn] at hok
    rw [h _ _ hm]
    exact (hq _).keeps hok hus
  refuses := by
    intro taken rest us herror hus
    have hn := Nat.le_max_left (taken ++ rest).length (taken ++ us).length
    have hm := Nat.le_max_right (taken ++ rest).length (taken ++ us).length
    rw [h _ _ hn] at herror
    rw [h _ _ hm]
    exact (hq _).refuses herror hus

theorem sound (hp : Predicts p f) : Sound p f := by
  intro ts a rest hok
  obtain ⟨taken, rfl, rfl⟩ := hp.accepts hok
  rfl

end Predictive

namespace AgreeUpTo

variable {p' : Parser α} {k' : α → Parser β} {n : Nat}

theorem refl (p : Parser α) : AgreeUpTo n p p :=
  fun _ _ => rfl

theorem bind (h : AgreeUpTo n p p') (hp : Sound p f) (hk : ∀ a, AgreeUpTo n (k a) (k' a)) :
    AgreeUpTo n (p >>= k) (p' >>= k') := by
  intro ts hts
  rw [bind_apply, bind_apply, ← h ts hts]
  cases ha : p ts with
  | error e => rfl
  | ok r =>
    have hlength := congrArg List.length (hp ha)
    rw [List.length_append] at hlength
    exact hk r.1 r.2 (by omega)

theorem bind_taking (hp : Sound p f) (hf : ∀ a, f a ≠ []) (hk : ∀ a, AgreeUpTo n (k a) (k' a)) :
    AgreeUpTo (n + 1) (p >>= k) (p >>= k') := by
  -- The first part takes a token, so the second one is needed for shorter lists only.
  intro ts hts
  rw [bind_apply, bind_apply]
  cases ha : p ts with
  | error e => rfl
  | ok r =>
    have hlength := congrArg List.length (hp ha)
    have hpos := List.length_pos_iff.2 (hf r.1)
    rw [List.length_append] at hlength
    exact hk r.1 r.2 (by omega)

theorem next {k k' : Option TokenKind → Parser β} (hk : ∀ n', AgreeUpTo n (k n') (k' n')) :
    AgreeUpTo n (next >>= k) (next >>= k') :=
  fun ts hts => hk (nextKind ts) ts hts

theorem map (h : AgreeUpTo n p p') : AgreeUpTo n (g <$> p) (g <$> p') :=
  fun ts hts => by rw [map_apply, map_apply, h ts hts]

theorem repeatAtMost (h : AgreeUpTo n p p') (hp : Sound p f) (m : Nat) :
    AgreeUpTo n (repeatAtMost more p m) (repeatAtMost more p' m) := by
  induction m with
  | zero => exact .refl _
  | succ m ih =>
    refine .next fun kind => ?_
    cases kind with
    | none => exact .refl _
    | some kind =>
      dsimp only
      split
      · exact h.bind hp fun a => ih.bind (hp.repeatAtMost m) fun as => .refl _
      · exact .refl _

theorem repeatWhile (h : AgreeUpTo n p p') (hp : Sound p f) :
    AgreeUpTo n (repeatWhile more p) (repeatWhile more p') :=
  fun ts hts => h.repeatAtMost hp ts.length ts hts

end AgreeUpTo

theorem repeatAtMost_bound (hp : Sound p f) (hf : ∀ a, f a ≠ []) {l m n : Nat} (hm : l ≤ m)
    (hn : l ≤ n) : AgreeUpTo l (repeatAtMost more p m) (repeatAtMost more p n) := by
  -- Each part takes a token, so there are no more parts than tokens.
  induction l generalizing m n with
  | zero =>
    intro ts hts
    obtain rfl : ts = [] := by simpa using hts
    cases m <;> cases n <;> rfl
  | succ l ih =>
    obtain ⟨m, rfl⟩ := Nat.exists_eq_succ_of_ne_zero (Nat.ne_of_gt (Nat.zero_lt_of_lt hm))
    obtain ⟨n, rfl⟩ := Nat.exists_eq_succ_of_ne_zero (Nat.ne_of_gt (Nat.zero_lt_of_lt hn))
    refine .next fun kind => ?_
    cases kind with
    | none => exact .refl _
    | some kind =>
      dsimp only
      split
      · have hrec := ih (Nat.le_of_succ_le_succ hm) (Nat.le_of_succ_le_succ hn)
        exact .bind_taking hp hf fun a => hrec.bind (hp.repeatAtMost m) fun as => .refl _
      · exact .refl _

namespace Predicts

theorem bind (hp : Predicts p f) (hk : ∀ a, Predictive (k a) fun b us => spells₂ b (f a ++ us)) :
    Predictive (p >>= k) spells₂ := by
  refine Predictive.bind hp fun a ts ha => ?_
  subst ha
  exact hk a

theorem map (hp : Predicts p f) (h : ∀ a, spells₂ (g a) (f a)) : Predictive (g <$> p) spells₂ :=
  Predictive.map hp fun a _ ha => ha ▸ h a

theorem opt (hp : Predicts p f) : Predicts (opt kind p) (optTokens f) := by
  refine Predictive.next fun n => ?_
  split
  · exact hp.map fun a => rfl
  · exact .pure rfl

theorem repeatAtMost (hp : Predicts p f) (n : Nat) :
    Predicts (repeatAtMost more p n) (List.flatMap f) := by
  induction n with
  | zero => exact .pure rfl
  | succ n ih =>
    refine Predictive.next fun n => ?_
    cases n with
    | none => exact .pure rfl
    | some kind =>
      dsimp only
      split
      · exact hp.bind fun a => ih.bind fun as => .pure (by simp)
      · exact .pure rfl

theorem repeatWhile (hp : Predicts p f) (hf : ∀ a, f a ≠ []) :
    Predicts (repeatWhile more p) (List.flatMap f) :=
  .of_bound hp.repeatAtMost fun _ ts hn =>
    repeatAtMost_bound hp.sound hf (Nat.le_refl _) hn ts (Nat.le_refl _)

theorem tail (hp : Predicts p f) : Predicts (tail kind p) (tailTokens f) := by
  have hpart : Predicts (do let t ← Parser.token kind; let a ← p; pure (t, a))
      fun x : Tok kind × α => x.1.tokens ++ f x.2 :=
    Predictive.token.bind fun t => hp.bind fun a => .pure (by simp)
  have hne : ∀ x : Tok kind × α, x.1.tokens ++ f x.2 ≠ [] := fun _ => List.cons_ne_nil _ _
  exact (hpart.repeatWhile hne).mono fun xs ts h => (tailTokens_eq_flatMap f xs).trans h

end Predicts

end Parser

end SliceIdl.Grammar
