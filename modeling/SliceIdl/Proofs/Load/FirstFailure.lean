import SliceIdl.Proofs.Load.Interleaving

/-!
# The first failure of a run

A job settles one unit at most, and the job after which a failure is known registers no name. So the
register stands still from the job at which the first unit fails, its failure is the answer however
other units come out, and what is on register by then is still loaded to its own end.
-/

set_option autoImplicit false

namespace SliceIdl
open Closure

variable {Doc : Type}

namespace Closure.State

/-- One unit at most has settled since the earlier state. -/
def SettlesOne (s s' : State Doc) : Prop :=
  s'.settled = s.settled ∨ ∃ name result, s'.settled = s.settled ++ [(name, result)]

theorem failure?_of_settled {s s' : State Doc} (h : s'.settled = s.settled) :
    s'.failure? = s.failure? := by
  rw [failure?, failure?, h]

theorem failure?_settle_ok (s : State Doc) (name : Text) (loaded : LoadedUnit Doc) :
    (s.settle name (.ok loaded)).failure? = s.failure? := by
  rw [failure?, failure?, settle_settled, List.findSome?_append]
  simp

theorem settle_registered (s : State Doc) (name : Text)
    (result : Except LoadFailure (LoadedUnit Doc)) :
    (s.settle name result).registered = s.registered := by
  rw [settle]
  dsimp only
  split <;> rfl

theorem rouse_registered (s : State Doc) : s.rouse.registered = s.registered := by
  rw [rouse]
  split <;> rfl

theorem notice_registered (s : State Doc) (name : Text) :
    (s.notice name).registered = s.registered := by
  rw [notice]
  dsimp only
  split
  · exact rouse_registered _
  · rfl

theorem wake_registered (s : State Doc) : s.wake.registered = s.registered := by
  rw [wake]
  split <;> rfl

theorem requestAll_failure? (s : State Doc) (includedFrom : Option Text) (names : List Text) :
    (s.requestAll includedFrom names).failure? = s.failure? :=
  failure?_of_settled (s.requestAll_settled includedFrom names)

theorem SettlesOne.failure {s s' : State Doc} (h : SettlesOne s s') {f : LoadFailure}
    (hs : s.failure? = none) (hf : s'.failure? = some f) :
    ∃ name, s'.settled = s.settled ++ [(name, .error f)] := by
  rcases h with heq | ⟨name, result, heq⟩
  · rw [failure?_of_settled heq, hs] at hf
    cases hf
  · rw [failure?] at hs hf
    rw [heq, List.findSome?_append, hs, Option.none_or] at hf
    cases result with
    | ok loaded => cases hf
    | error f' =>
      cases hf
      exact ⟨name, heq⟩

end Closure.State

namespace Loader

variable (l : Loader Doc)

theorem tryRoots_registered (s : State Doc) (name : Text) (includedFrom : Option Text)
    (roots : List Text) :
    (l.tryRoots s name includedFrom roots).registered = s.registered := by
  cases roots with
  | nil => exact s.settle_registered ..
  | cons root roots =>
    rw [tryRoots, State.enqueue]
    dsimp only
    split
    · exact State.rouse_registered _
    · rfl

theorem tryRoots_settlesOne (s : State Doc) (name : Text) (includedFrom : Option Text)
    (roots : List Text) : State.SettlesOne s (l.tryRoots s name includedFrom roots) := by
  cases roots with
  | nil => exact .inr ⟨_, _, s.settle_settled ..⟩
  | cons root roots =>
    left
    rw [tryRoots, State.enqueue]
    dsimp only
    split
    · exact State.rouse_settled _
    · rfl

theorem resume_settlesOne (s : State Doc) (p : Probe) : State.SettlesOne s (l.resume s p) := by
  cases hr : l.reader.read p.path with
  | unreadable e =>
    rw [l.resume_unreadable s hr]
    exact l.tryRoots_settlesOne (s.note (.unreadable p.name p.root e)) ..
  | broken f =>
    rw [l.resume_broken s hr]
    exact .inr ⟨_, _, s.settle_settled ..⟩
  | text t =>
    right
    cases hu : LoadedUnit.ofText l.language p.name p.root t with
    | error f =>
      rw [l.resume_refused s hr hu, State.settle_settled]
      exact ⟨_, _, rfl⟩
    | ok loaded =>
      rw [l.resume_loaded s hr hu, State.settle_settled, State.requestAll_settled]
      exact ⟨_, _, rfl⟩

theorem perform_settlesOne (s : State Doc) (job : Job) :
    State.SettlesOne s (l.perform s job) := by
  cases job with
  | attempt name includedFrom => exact l.tryRoots_settlesOne ..
  | hop p => exact .inl rfl
  | resume p => exact l.resume_settlesOne s p
  | notice name => exact .inl (s.notice_settled name)
  | wake => exact .inl s.wake_settled

theorem resume_registered {s : State Doc} {p : Probe} {f : LoadFailure}
    (h : (l.resume s p).failure? = some f) : (l.resume s p).registered = s.registered := by
  cases hr : l.reader.read p.path with
  | unreadable e =>
    rw [l.resume_unreadable s hr]
    exact l.tryRoots_registered (s.note (.unreadable p.name p.root e)) ..
  | broken f =>
    rw [l.resume_broken s hr]
    exact s.settle_registered ..
  | text t =>
    cases hu : LoadedUnit.ofText l.language p.name p.root t with
    | error f =>
      rw [l.resume_refused s hr hu]
      exact State.settle_registered ..
    | ok loaded =>
      rw [l.resume_loaded s hr hu] at h ⊢
      rw [State.failure?_settle_ok, State.requestAll_failure?] at h
      rw [State.settle_registered, State.requestAll_of_some h]
      rfl

theorem perform_registered {s : State Doc} {job : Job} {f : LoadFailure}
    (h : (l.perform s job).failure? = some f) : (l.perform s job).registered = s.registered := by
  cases job with
  | attempt name includedFrom => exact l.tryRoots_registered ..
  | hop p => rfl
  | resume p => exact l.resume_registered h
  | notice name => exact s.notice_registered name
  | wake => exact s.wake_registered

def stateAfter (names : List Text) (n : Nat) : State Doc :=
  l.runFor n (l.start names)

theorem runFor_succ (n : Nat) (s : State Doc) :
    l.runFor (n + 1) s = (l.step (l.runFor n s)).getD (l.runFor n s) := by
  induction n generalizing s with
  | zero =>
    rw [runFor, runFor]
    cases l.step s <;> rfl
  | succ n ih =>
    cases hs : l.step s with
    | none => simp [runFor, hs]
    | some s' =>
      have hfor (k : Nat) : l.runFor (k + 1) s = l.runFor k s' := by rw [runFor, hs]
      rw [hfor (n + 1), hfor n, ih s']

theorem stateAfter_succ (names : List Text) (n : Nat) :
    l.stateAfter names (n + 1) = l.stateAfter names n ∨
      ∃ job queue, (l.stateAfter names n).queue = job :: queue ∧
        l.stateAfter names (n + 1) = l.perform { l.stateAfter names n with queue } job := by
  rw [stateAfter, runFor_succ, ← stateAfter]
  cases hq : (l.stateAfter names n).queue with
  | nil =>
    left
    simp [step, hq]
  | cons job queue =>
    right
    exact ⟨job, queue, rfl, by rw [l.step_of_cons hq, Option.getD_some]⟩

theorem stateAfter_induction {motive : State Doc → Prop} {names : List Text}
    (start : motive (l.start names))
    (perform : ∀ s job queue, motive s → s.queue = job :: queue →
      motive (l.perform { s with queue } job)) (n : Nat) : motive (l.stateAfter names n) := by
  induction n with
  | zero => exact start
  | succ n ih =>
    rcases l.stateAfter_succ names n with h | ⟨job, queue, hq, h⟩
    · exact h ▸ ih
    · exact h ▸ perform _ job queue ih hq

theorem stateAfter_settlesOne (names : List Text) (n : Nat) :
    State.SettlesOne (l.stateAfter names n) (l.stateAfter names (n + 1)) := by
  rcases l.stateAfter_succ names n with h | ⟨job, queue, -, h⟩
  · rw [h]
    exact .inl rfl
  · rw [h]
    exact l.perform_settlesOne { l.stateAfter names n with queue } job

theorem stateAfter_settled (names : List Text) (n : Nat) :
    (l.stateAfter names n).settled <+: (l.stateAfter names (n + 1)).settled := by
  rcases l.stateAfter_settlesOne names n with h | ⟨name, result, h⟩
  · exact h ▸ List.prefix_rfl
  · exact h ▸ List.prefix_append ..

theorem stateAfter_registered {names : List Text} {n : Nat} {f : LoadFailure}
    (h : (l.stateAfter names (n + 1)).failure? = some f) :
    (l.stateAfter names (n + 1)).registered = (l.stateAfter names n).registered := by
  rcases l.stateAfter_succ names n with he | ⟨job, queue, -, he⟩
  · rw [he]
  · rw [he] at h ⊢
    exact l.perform_registered (s := { l.stateAfter names n with queue }) h

theorem exists_stateAfter (names : List Text) :
    ∃ n, ∀ m, n ≤ m → l.run (l.start names) = l.stateAfter names m := by
  have hend (s : State Doc) : ∃ n, l.run s = l.runFor n s := by
    induction s using l.run_induction with
    | nil s hq => exact ⟨0, l.run_of_nil hq⟩
    | cons s job queue hq ih =>
      obtain ⟨n, hn⟩ := ih
      refine ⟨n + 1, ?_⟩
      rw [l.run_of_cons hq, hn, runFor, l.step_of_cons hq]
  obtain ⟨n, hn⟩ := hend (l.start names)
  refine ⟨n, fun m hm => ?_⟩
  induction m, hm using Nat.le_induction with
  | base => exact hn
  | succ m _ ih =>
    rw [stateAfter, runFor_succ, ← stateAfter, ← ih]
    simp [step, l.run_queue]

/-- The first unit that fails does so at the job after the first `n`, with the failure `f`. -/
structure FailsFirst (names : List Text) (n : Nat) (name : Text) (f : LoadFailure) : Prop where
  before : (l.stateAfter names n).failure? = none
  settles : (l.stateAfter names (n + 1)).settled =
    (l.stateAfter names n).settled ++ [(name, .error f)]

variable {l} {names : List Text} {n : Nat} {name : Text} {f : LoadFailure}

theorem FailsFirst.failure? (h : l.FailsFirst names n name f) {m : Nat} (hm : n < m) :
    (l.stateAfter names m).failure? = some f := by
  induction m, hm using Nat.le_induction with
  | base =>
    have hb := h.before
    rw [State.failure?] at hb ⊢
    rw [h.settles, List.findSome?_append, hb]
    rfl
  | succ m _ ih => exact State.failure?_of_prefix _ (l.stateAfter_settled names m) ih

theorem FailsFirst.registered (h : l.FailsFirst names n name f) {m : Nat} (hm : n ≤ m) :
    (l.stateAfter names m).registered = (l.stateAfter names n).registered := by
  induction m, hm using Nat.le_induction with
  | base => rfl
  | succ m hm ih =>
    rw [← ih]
    exact l.stateAfter_registered (h.failure? (Nat.lt_succ_of_le hm))

theorem FailsFirst.run_failure? (h : l.FailsFirst names n name f) :
    (l.run (l.start names)).failure? = some f := by
  obtain ⟨m, hm⟩ := l.exists_stateAfter names
  rw [hm (max m (n + 1)) (Nat.le_max_left ..)]
  exact h.failure? (Nat.le_max_right m (n + 1))

theorem FailsFirst.run_registered (h : l.FailsFirst names n name f) :
    (l.run (l.start names)).registered = (l.stateAfter names n).registered := by
  obtain ⟨m, hm⟩ := l.exists_stateAfter names
  rw [hm (max m n) (Nat.le_max_left ..)]
  exact h.registered (Nat.le_max_right m n)

variable (l)

theorem start_failure? (names : List Text) : (l.start names).failure? = none := by
  have h : ((State.empty : State Doc).requestAll none names).failure? = none :=
    State.requestAll_failure? ..
  rw [start]
  split <;> exact h

theorem exists_failsFirst (h : (l.run (l.start names)).failure? = some f) :
    ∃ n name, l.FailsFirst names n name f := by
  obtain ⟨m, hm⟩ := l.exists_stateAfter names
  rw [hm m le_rfl] at h
  clear hm
  induction m with
  | zero =>
    have hs := l.start_failure? names
    rw [stateAfter, runFor, hs] at h
    cases h
  | succ m ih =>
    cases hm : (l.stateAfter names m).failure? with
    | none =>
      obtain ⟨name, hn⟩ := (l.stateAfter_settlesOne names m).failure hm h
      exact ⟨m, name, hm, hn⟩
    | some f' =>
      have hf := State.failure?_of_prefix _ (l.stateAfter_settled names m) hm
      rw [h, Option.some.injEq] at hf
      exact ih (hf ▸ hm)

/-- A closure fails as its first unit to fail does, whatever comes after that. From the job at which
this happens no name is registered any more, and each name that is registered by then still comes
out as it does alone, after all that is read for it. -/
theorem loadClosure_firstFailure (h : (l.loadClosure names).1 ≠ .cancelled) :
    (∀ f, (l.loadClosure names).1 = .failed f ↔ ∃ n name, l.FailsFirst names n name f) ∧
    ∀ n name f, l.FailsFirst names n name f →
      (∀ m, n ≤ m → (l.stateAfter names m).registered = (l.stateAfter names n).registered) ∧
      ((l.run (l.start names)).settled.map Prod.fst).Perm (l.stateAfter names n).registered ∧
      (∀ r ∈ (l.run (l.start names)).settled,
        ∃ origin, l.Origin names r.1 origin ∧ r.2 = l.load r.1 origin) ∧
      l.LoadsOnce (l.stateAfter names n).registered (l.loadClosure names).2 := by
  have hc := l.cancelled_of_ne h
  have hs := l.sound_of_reaches (l.run_ends names).1 hc
  have hp := l.ledger_pending (l.run_queue (l.start names))
  have hanswer : ∀ f, (l.loadClosure names).1 = .failed f ↔
      (l.run (l.start names)).failure? = some f := by
    intro f
    rw [loadClosure_answer hc]
    cases hf : (l.run (l.start names)).failure? with
    | none => simp [State.answer_loaded hf]
    | some f' => simp [State.answer_failed hf]
  constructor
  · intro f
    rw [hanswer]
    constructor
    · exact l.exists_failsFirst
    · rintro ⟨n, name, hf⟩
      exact hf.run_failure?
  · intro n name f hf
    have hsettled := hs.settled_perm hp
    have hloads := l.loadClosure_loadsOnce h
    have hreg : (l.ledger (l.run (l.start names))).registered =
        (l.stateAfter names n).registered := hf.run_registered
    rw [hreg] at hsettled
    rw [hf.run_registered] at hloads
    exact ⟨fun m hm => hf.registered hm, hsettled, hs.settled, hloads⟩

/-- A unit fails below the first root while another one is looked for below the second. -/
theorem loadClosure_firstFailure_twoRoots :
    (twoRoots.loadClosure [['a']]).1 ≠ .cancelled ∧
    twoRoots.FailsFirst [['a']] 9 ['b'] (.fault (.ofValue [])) ∧
    (twoRoots.loadClosure [['a']]).1 = .failed (.fault (.ofValue [])) ∧
    (∀ m, 9 ≤ m → (twoRoots.stateAfter [['a']] m).registered = [['a'], ['b'], ['c']]) ∧
    ((twoRoots.run (twoRoots.start [['a']])).settled.map Prod.fst).Perm [['a'], ['b'], ['c']] := by
  have h : (twoRoots.loadClosure [['a']]).1 ≠ .cancelled := twoRoots.loadClosure_ne_cancelled rfl _
  have hf : twoRoots.FailsFirst [['a']] 9 ['b'] (.fault (.ofValue [])) :=
    ⟨by decide, by decide⟩
  obtain ⟨hiff, hall⟩ := twoRoots.loadClosure_firstFailure h
  obtain ⟨hreg, hperm, -, -⟩ := hall _ _ _ hf
  exact ⟨h, hf, (hiff _).2 ⟨_, _, hf⟩, hreg, hperm⟩

end Loader

end SliceIdl
