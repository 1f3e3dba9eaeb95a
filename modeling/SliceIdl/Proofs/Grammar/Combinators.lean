import SliceIdl.Grammar.Parser

/-!
# Parsers and the tokens they read

A parser is sound if every tree that it reads has the tokens that it took. It reads a tree if it
takes the tokens of that tree off any list that goes on with something it would not take as well;
what that may be is said by the kind of the next token. Both properties pass from the parts to
optional parts and to repetitions.
-/

set_option autoImplicit false

namespace SliceIdl.Grammar

def nextKind (ts : List Token) : Option TokenKind :=
  ts.head?.map Token.kind

def startsWith (more : TokenKind → Bool) (ts : List Token) : Bool :=
  (nextKind ts).any more

variable {α β : Type} {kind : TokenKind} {more : TokenKind → Bool} {ts rest : List Token}

@[simp]
theorem nextKind_tok (t : Tok kind) : nextKind (t.tokens ++ rest) = some kind := rfl

@[simp]
theorem nextKind_eq_some_iff : nextKind ts = some kind ↔ startsWith (· == kind) ts := by
  rw [startsWith]
  cases nextKind ts <;> simp

@[simp]
theorem startsWith_nil : startsWith more [] = false := rfl

@[simp]
theorem startsWith_tok (t : Tok kind) : startsWith more (t.tokens ++ rest) = more kind := by
  simp [startsWith]

@[simp]
theorem optTokens_none (f : α → List Token) : optTokens f none = [] := rfl

@[simp]
theorem optTokens_some (f : α → List Token) (a : α) : optTokens f (some a) = f a := rfl

theorem startsWith_optTokens {f : α → List Token} {o : Option α}
    (hf : ∀ a, startsWith more (f a ++ rest) = more kind) :
    startsWith more (optTokens f o ++ rest) =
      if o.isSome then more kind else startsWith more rest := by
  cases o with
  | none => rfl
  | some a => exact hf a

@[simp]
theorem startsWith_optTok {o : Option (Tok kind)} :
    startsWith more (optTokens Tok.tokens o ++ rest) =
      if o.isSome then more kind else startsWith more rest :=
  startsWith_optTokens fun _ => rfl

@[simp]
theorem startsWith_tailTokens {f : α → List Token} {xs : List (Tok kind × α)} :
    startsWith more (tailTokens f xs ++ rest) =
      if xs.isEmpty then startsWith more rest else more kind := by
  cases xs <;> rfl

namespace Parser

variable {p : Parser α} {k : α → Parser β} {g : α → β} {a : α} {b : β}

@[simp]
theorem bind_apply : (p >>= k) ts = (p ts).bind fun r => k r.1 r.2 := rfl

@[simp]
theorem pure_apply : (pure a : Parser α) ts = .ok (a, ts) := rfl

@[simp]
theorem map_apply : (g <$> p) ts = (p ts).map fun r => (g r.1, r.2) := by
  show (p ts >>= fun r => pure (g r.1, r.2)) = _
  cases p ts <;> rfl

@[simp]
theorem ok_bind {ε : Type} {f : α → Except ε β} : (Except.ok a : Except ε α).bind f = f a := rfl

@[simp]
theorem ok_map {ε : Type} : (Except.ok a : Except ε α).map g = .ok (g a) := rfl

@[simp]
theorem next_apply : next ts = .ok (nextKind ts, ts) := rfl

@[simp]
theorem ite_apply {c : Prop} [Decidable c] {q : Parser α} :
    (if c then p else q) ts = if c then p ts else q ts := by
  split <;> rfl

theorem opt_apply : opt kind p ts =
    if startsWith (· == kind) ts then (p ts).map fun r => (some r.1, r.2) else .ok (none, ts) := by
  simp [opt]

theorem repeatAtMost_succ_apply {n : Nat} : repeatAtMost more p (n + 1) ts =
    if startsWith more ts then
      (p ts).bind fun r => (repeatAtMost more p n r.2).map fun r' => (r.1 :: r'.1, r'.2)
    else .ok ([], ts) := by
  rw [repeatAtMost, bind_apply, next_apply, ok_bind]
  cases ts with
  | nil => rfl
  | cons t ts =>
    have hnext : nextKind (t :: ts) = some t.kind := rfl
    have hstarts : startsWith more (t :: ts) = more t.kind := rfl
    rw [hnext, hstarts]
    dsimp only
    by_cases ht : more t.kind
    · rw [if_pos ht, if_pos ht, bind_apply]
      congr 1
    · rw [if_neg ht, if_neg ht, pure_apply]

theorem bind_eq_ok : (p >>= k) ts = .ok (b, rest) ↔
    ∃ a mid, p ts = .ok (a, mid) ∧ k a mid = .ok (b, rest) := by
  rw [bind_apply]
  cases p ts with
  | error e => simp [Except.bind]
  | ok r => simp [Prod.ext_iff, eq_comm, and_assoc]

theorem map_eq_ok : (g <$> p) ts = .ok (b, rest) ↔ ∃ a, p ts = .ok (a, rest) ∧ g a = b := by
  rw [map_apply]
  cases p ts with
  | error e => simp [Except.map]
  | ok r =>
    obtain ⟨a, mid⟩ := r
    constructor
    · intro h
      cases h
      exact ⟨a, rfl, rfl⟩
    · rintro ⟨_, h, rfl⟩
      cases h
      rfl

theorem next_eq_ok {n : Option TokenKind} :
    next ts = .ok (n, rest) ↔ nextKind ts = n ∧ ts = rest := by
  rw [next_apply, Except.ok.injEq, Prod.mk.injEq]

/-- What is read has the tokens that were taken. -/
def Sound (p : Parser α) (f : α → List Token) : Prop :=
  ∀ ⦃ts a rest⦄, p ts = .ok (a, rest) → ts = f a ++ rest

theorem token_sound : Sound (token kind) Tok.tokens := by
  intro ts a rest h
  cases ts with
  | nil => cases h
  | cons t ts =>
    rw [token] at h
    split at h
    · next hk =>
      subst hk
      cases h
      rfl
    · cases h

theorem Sound.opt {f : α → List Token} (hp : Sound p f) : Sound (opt kind p) (optTokens f) := by
  intro ts o rest h
  rw [opt_apply] at h
  split at h
  · rw [← map_apply, map_eq_ok] at h
    obtain ⟨a, ha, rfl⟩ := h
    exact hp ha
  · cases h
    rfl

theorem Sound.repeatAtMost {f : α → List Token} (hp : Sound p f) (n : Nat) :
    Sound (repeatAtMost more p n) (List.flatMap f) := by
  induction n with
  | zero =>
    intro ts as rest h
    cases h
    rfl
  | succ n ih =>
    intro ts as rest h
    rw [repeatAtMost_succ_apply] at h
    split at h
    · cases ha : p ts with
      | error e => simp [ha, Except.bind] at h
      | ok r =>
        obtain ⟨a, mid⟩ := r
        rw [ha, ok_bind] at h
        cases has : Parser.repeatAtMost more p n mid with
        | error e => simp [has, Except.map] at h
        | ok r =>
          rw [has] at h
          cases h
          rw [hp ha, ih has, List.flatMap_cons, List.append_assoc]
    · cases h
      rfl

theorem Sound.repeatWhile {f : α → List Token} (hp : Sound p f) :
    Sound (repeatWhile more p) (List.flatMap f) :=
  fun _ _ _ h => hp.repeatAtMost _ h

theorem repeatAtMost_stops (hp : ∀ ⦃ts a rest⦄, p ts = .ok (a, rest) → rest.length < ts.length)
    {n : Nat} {as : List α} (h : Parser.repeatAtMost more p n ts = .ok (as, rest))
    (hn : ts.length ≤ n) : startsWith more rest = false := by
  induction n generalizing ts as with
  | zero =>
    cases h
    rw [List.eq_nil_of_length_eq_zero (Nat.le_zero.1 hn), startsWith_nil]
  | succ n ih =>
    rw [repeatAtMost_succ_apply] at h
    split at h
    · cases ha : p ts with
      | error e => simp [ha, Except.bind] at h
      | ok r =>
        obtain ⟨a, mid⟩ := r
        have hmid := hp ha
        rw [ha, ok_bind] at h
        cases has : Parser.repeatAtMost more p n mid with
        | error e => simp [has, Except.map] at h
        | ok r =>
          rw [has] at h
          cases h
          exact ih has (by omega)
    · next hs =>
      cases h
      simpa using hs

theorem tailTokens_eq_flatMap (f : α → List Token) (xs : List (Tok kind × α)) :
    tailTokens f xs = xs.flatMap fun x => x.1.tokens ++ f x.2 := by
  induction xs with
  | nil => rfl
  | cons x xs ih => rw [tailTokens, ih, List.flatMap_cons]

theorem Sound.tail {f : α → List Token} (hp : Sound p f) :
    Sound (tail kind p) (tailTokens f) := by
  have hpart : Sound (do let t ← token kind; let a ← p; pure (t, a))
      fun x : Tok kind × α => x.1.tokens ++ f x.2 := by
    intro ts x rest h
    simp only [bind_eq_ok, pure_apply, Except.ok.injEq, Prod.mk.injEq] at h
    obtain ⟨t, mid, ht, a, mid', ha, rfl, rfl⟩ := h
    rw [token_sound ht, hp ha, List.append_assoc]
  intro ts xs rest h
  rw [tailTokens_eq_flatMap]
  exact hpart.repeatWhile h

@[simp]
theorem token_tokens (t : Tok kind) : token kind (t.tokens ++ rest) = .ok (t, rest) := by
  simp [token, Tok.tokens, Tok.token]

theorem opt_none (h : startsWith (· == kind) rest = false) :
    opt kind p rest = .ok (none, rest) := by
  rw [opt_apply, h]
  rfl

theorem opt_some {mid : List Token} (hs : startsWith (· == kind) ts) (hp : p ts = .ok (a, mid)) :
    opt kind p ts = .ok (some a, mid) := by
  rw [opt_apply, if_pos hs, hp, ok_map]

theorem opt_tokens {f : α → List Token} {o : Option α}
    (hp : ∀ a, p (f a ++ rest) = .ok (a, rest))
    (hs : ∀ a rest, startsWith (· == kind) (f a ++ rest))
    (h : startsWith (· == kind) rest = false) :
    opt kind p (optTokens f o ++ rest) = .ok (o, rest) := by
  cases o with
  | none => exact opt_none h
  | some a => exact opt_some (hs a rest) (hp a)

@[simp]
theorem opt_token {o : Option (Tok kind)} (h : startsWith (· == kind) rest = false) :
    opt kind (token kind) (optTokens Tok.tokens o ++ rest) = .ok (o, rest) :=
  opt_tokens (by simp) (by simp) h

theorem repeatAtMost_tokens {f : α → List Token} (stop : List Token → Prop) {as : List α} {n : Nat}
    (hp : ∀ a ∈ as, ∀ rest, stop rest → p (f a ++ rest) = .ok (a, rest))
    (hs : ∀ a ∈ as, ∀ rest, startsWith more (f a ++ rest) ∧ stop (f a ++ rest))
    (hstop : stop rest) (hend : startsWith more rest = false) (hn : as.length ≤ n) :
    repeatAtMost more p n (as.flatMap f ++ rest) = .ok (as, rest) := by
  induction as generalizing n with
  | nil =>
    cases n with
    | zero => rfl
    | succ n =>
      rw [List.flatMap_nil, List.nil_append, repeatAtMost_succ_apply, hend]
      rfl
  | cons a as ih =>
    cases n with
    | zero => simp at hn
    | succ n =>
      have hp' : ∀ b ∈ as, ∀ rest, stop rest → p (f b ++ rest) = .ok (b, rest) :=
        fun b hb => hp b (List.mem_cons_of_mem _ hb)
      have hs' : ∀ b ∈ as, ∀ rest, startsWith more (f b ++ rest) ∧ stop (f b ++ rest) :=
        fun b hb => hs b (List.mem_cons_of_mem _ hb)
      have hmid : stop (as.flatMap f ++ rest) := by
        cases as with
        | nil => exact hstop
        | cons b as =>
          rw [List.flatMap_cons, List.append_assoc]
          exact (hs' b List.mem_cons_self _).2
      have hmore := (hs a List.mem_cons_self (as.flatMap f ++ rest)).1
      have hread := hp a List.mem_cons_self _ hmid
      have hrec := ih hp' hs' (Nat.le_of_succ_le_succ hn)
      rw [List.flatMap_cons, List.append_assoc, repeatAtMost_succ_apply, if_pos hmore, hread,
        ok_bind, hrec, ok_map]

theorem length_le_flatMap {f : α → List Token} {as : List α}
    (hs : ∀ a ∈ as, ∀ rest, startsWith more (f a ++ rest)) :
    as.length ≤ (as.flatMap f ++ rest).length := by
  have hpos : ∀ a ∈ as, 0 < (f a).length := by
    intro a ha
    have h := hs a ha []
    cases hf : f a with
    | nil => simp [hf] at h
    | cons t ts => simp
  induction as with
  | nil => simp
  | cons a as ih =>
    have hrec := ih (fun b hb => hs b (List.mem_cons_of_mem _ hb))
      fun b hb => hpos b (List.mem_cons_of_mem _ hb)
    have ha := hpos a List.mem_cons_self
    simp only [List.flatMap_cons, List.length_append, List.length_cons] at hrec ⊢
    omega

theorem repeatWhile_tokens {f : α → List Token} (stop : List Token → Prop) {as : List α}
    (hp : ∀ a ∈ as, ∀ rest, stop rest → p (f a ++ rest) = .ok (a, rest))
    (hs : ∀ a ∈ as, ∀ rest, startsWith more (f a ++ rest) ∧ stop (f a ++ rest))
    (hstop : stop rest) (hend : startsWith more rest = false) :
    repeatWhile more p (as.flatMap f ++ rest) = .ok (as, rest) :=
  repeatAtMost_tokens stop hp hs hstop hend
    (length_le_flatMap fun a ha rest => (hs a ha rest).1)

theorem tail_tokens {f : α → List Token} (goesOn : TokenKind → Bool) {xs : List (Tok kind × α)}
    (hp : ∀ a rest, startsWith goesOn rest = false → p (f a ++ rest) = .ok (a, rest))
    (hk : goesOn kind = false) (hstop : startsWith goesOn rest = false)
    (hend : startsWith (· == kind) rest = false) :
    tail kind p (tailTokens f xs ++ rest) = .ok (xs, rest) := by
  rw [tailTokens_eq_flatMap]
  refine repeatWhile_tokens (fun rest => startsWith goesOn rest = false) ?_ ?_ hstop hend
  · intro x _ rest hrest
    simp [hp x.2 rest hrest, Except.map]
  · intro x _ rest
    simp [hk]

@[simp]
theorem tail_token {kind' : TokenKind} {xs : List (Tok kind × Tok kind')}
    (hend : startsWith (· == kind) rest = false) :
    tail kind (token kind') (tailTokens Tok.tokens xs ++ rest) = .ok (xs, rest) :=
  tail_tokens (fun _ => false) (by simp) rfl (by simp [startsWith]) hend

end Parser

end SliceIdl.Grammar
