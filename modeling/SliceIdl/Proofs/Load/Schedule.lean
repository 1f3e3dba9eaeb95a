import Mathlib.Logic.Relation
import SliceIdl.Load.Closure

/-!
# Schedules

A run takes its jobs first in, first out, but nothing that it promises about a single unit rests on
that. Here any queued job may be the next one, and the run of a loader is shown to be one of these
schedules. Whatever the schedule, what has settled stays settled, so the first failure is final.
-/

set_option autoImplicit false

namespace SliceIdl
open Closure

variable {Doc : Type}

namespace Loader

variable (l : Loader Doc)

/-- Any of the queued jobs may be the next one. -/
inductive Moves : State Doc → State Doc → Prop
  | perform {s : State Doc} {before after : List Job} {job : Job}
      (h : s.queue = before ++ job :: after) :
      Moves s (l.perform { s with queue := before ++ after } job)

/-- The states that can be come to from the start, in whatever order the jobs are done. -/
def Reaches (names : List Text) (s : State Doc) : Prop :=
  Relation.ReflTransGen l.Moves (l.start names) s

def Ends (names : List Text) (s : State Doc) : Prop :=
  l.Reaches names s ∧ s.queue = []

theorem step_of_cons {s : State Doc} {job : Job} {queue : List Job} (h : s.queue = job :: queue) :
    l.step s = some (l.perform { s with queue } job) := by
  simp [step, h]

theorem run_of_nil {s : State Doc} (h : s.queue = []) : l.run s = s := by
  rw [run]
  split
  · rfl
  · next s' hs => simp [step, h] at hs

theorem run_of_cons {s : State Doc} {job : Job} {queue : List Job} (h : s.queue = job :: queue) :
    l.run s = l.run (l.perform { s with queue } job) := by
  rw [run]
  split
  · next hs => simp [l.step_of_cons h] at hs
  · next s' hs =>
    rw [l.step_of_cons h, Option.some.injEq] at hs
    simp only [hs]

theorem run_induction {motive : State Doc → Prop} (nil : ∀ s, s.queue = [] → motive s)
    (cons : ∀ s job queue, s.queue = job :: queue →
      motive (l.perform { s with queue } job) → motive s) (s : State Doc) : motive s := by
  induction hw : l.weight s using Nat.strongRecOn generalizing s with
  | ind w ih =>
    cases hq : s.queue with
    | nil => exact nil s hq
    | cons job queue =>
      have hlt := l.step_weight (l.step_of_cons hq)
      exact cons s job queue hq (ih _ (hw ▸ hlt) _ rfl)

theorem run_queue (s : State Doc) : (l.run s).queue = [] := by
  induction s using l.run_induction with
  | nil s h => rw [l.run_of_nil h, h]
  | cons s job queue h ih => rwa [l.run_of_cons h]

theorem run_moves (s : State Doc) : Relation.ReflTransGen l.Moves s (l.run s) := by
  induction s using l.run_induction with
  | nil s h => rw [l.run_of_nil h]
  | cons s job queue h ih =>
    rw [l.run_of_cons h]
    exact .head (@Moves.perform _ l s [] queue job h) ih

def runFor : Nat → State Doc → State Doc
  | 0, s => s
  | n + 1, s =>
    match l.step s with
    | none => s
    | some s' => runFor n s'

theorem run_eq_runFor {n : Nat} {s : State Doc} (h : (l.runFor n s).queue = []) :
    l.run s = l.runFor n s := by
  induction n generalizing s with
  | zero => exact l.run_of_nil h
  | succ n ih =>
    rw [runFor] at h ⊢
    cases hq : s.queue with
    | nil =>
      rw [l.run_of_nil hq]
      simp [step, hq]
    | cons job queue =>
      simp only [l.step_of_cons hq] at h ⊢
      rw [l.run_of_cons hq, ih h]

theorem run_ends (names : List Text) : l.Ends names (l.run (l.start names)) :=
  ⟨l.run_moves _, l.run_queue _⟩

/-- Every job lowers the weight of a state, whichever it is. -/
theorem moves_weight {s s' : State Doc} (h : l.Moves s s') : l.weight s' < l.weight s := by
  cases h with
  | @perform before after job hq =>
    have hlt := l.step_weight
      (l.step_of_cons (s := { s with queue := job :: (before ++ after) }) rfl)
    apply Nat.lt_of_lt_of_le hlt
    apply Nat.le_of_eq
    simp only [weight, hq, queueWeight, queueWeight_append]
    show l.unregistered s * _ + _ = l.unregistered s * _ + _
    omega

/-- No schedule goes on for ever. -/
theorem moves_wellFounded : WellFounded fun s' s : State Doc => l.Moves s s' :=
  Subrelation.wf l.moves_weight (measure l.weight).wf

end Loader

namespace Closure.State

variable (s : State Doc)

theorem settle_settled (name : Text) (result : Except LoadFailure (LoadedUnit Doc)) :
    (s.settle name result).settled = s.settled ++ [(name, result)] := by
  rw [settle]
  dsimp only
  split <;> rfl

theorem rouse_settled : s.rouse.settled = s.settled := by
  rw [rouse]
  split <;> rfl

theorem notice_settled (name : Text) : (s.notice name).settled = s.settled := by
  rw [notice]
  dsimp only
  split
  · exact rouse_settled _
  · rfl

theorem wake_settled : s.wake.settled = s.settled := by
  rw [wake]
  split <;> rfl

theorem request_settled (includedFrom : Option Text) (name : Text) :
    (s.request includedFrom name).settled = s.settled := by
  rw [request]
  split
  · rfl
  · split <;> rfl

theorem requestAll_settled (includedFrom : Option Text) (names : List Text) :
    (s.requestAll includedFrom names).settled = s.settled := by
  induction names generalizing s with
  | nil => rfl
  | cons name names ih => exact (ih _).trans (s.request_settled includedFrom name)

theorem failure?_settle_error_ne (name : Text) (f : LoadFailure) :
    (s.settle name (.error f)).failure? ≠ none := by
  intro h
  rw [failure?, settle_settled, List.findSome?_append, Option.or_eq_none_iff] at h
  cases h.2

theorem mem_settled_of_failure? {f : LoadFailure} (h : s.failure? = some f) :
    ∃ name, (name, .error f) ∈ s.settled := by
  obtain ⟨⟨name, result⟩, hr, hf⟩ := List.exists_of_findSome?_eq_some h
  cases result with
  | error f' =>
    cases hf
    exact ⟨name, hr⟩
  | ok loaded => cases hf

theorem failure?_of_prefix {s' : State Doc} {f : LoadFailure} (h : s.settled <+: s'.settled)
    (hf : s.failure? = some f) : s'.failure? = some f := by
  obtain ⟨more, hm⟩ := h
  rw [failure?] at hf ⊢
  rw [← hm, List.findSome?_append, hf, Option.some_or]

end Closure.State

namespace Loader

variable (l : Loader Doc)

theorem tryRoots_settled (s : State Doc) (name : Text) (includedFrom : Option Text)
    (roots : List Text) : s.settled <+: (l.tryRoots s name includedFrom roots).settled := by
  cases roots with
  | nil =>
    rw [tryRoots, State.settle_settled]
    exact List.prefix_append ..
  | cons root roots =>
    simp only [tryRoots, State.enqueue]
    split
    · rw [State.cancel]
      exact (State.rouse_settled _).symm ▸ List.prefix_rfl
    · exact List.prefix_rfl

theorem resume_settled (s : State Doc) (p : Probe) : s.settled <+: (l.resume s p).settled := by
  rw [resume]
  split
  · next e _ =>
    exact l.tryRoots_settled (s.note (.unreadable p.name p.root e)) p.name p.includedFrom
      p.otherRoots
  · rw [State.settle_settled]
    exact List.prefix_append ..
  · dsimp only
    rw [State.settle_settled]
    split
    · exact List.prefix_append ..
    · rw [State.requestAll_settled]
      exact List.prefix_append ..

theorem perform_settled (s : State Doc) (job : Job) : s.settled <+: (l.perform s job).settled := by
  cases job with
  | attempt name includedFrom => exact l.tryRoots_settled ..
  | hop p => exact List.prefix_rfl
  | resume p => exact l.resume_settled s p
  | notice name => exact (s.notice_settled name) ▸ List.prefix_rfl
  | wake => exact s.wake_settled ▸ List.prefix_rfl

theorem run_settled (s : State Doc) : s.settled <+: (l.run s).settled := by
  induction s using l.run_induction with
  | nil s h => exact (l.run_of_nil h).symm ▸ List.prefix_rfl
  | cons s job queue h ih =>
    rw [l.run_of_cons h]
    exact (l.perform_settled { s with queue } job).trans ih

theorem run_failure? {s : State Doc} {f : LoadFailure} (h : s.failure? = some f) :
    (l.run s).failure? = some f :=
  s.failure?_of_prefix (l.run_settled s) h

theorem failure?_of_run {s : State Doc} (h : (l.run s).failure? = none) : s.failure? = none := by
  cases hs : s.failure? with
  | none => rfl
  | some f =>
    rw [l.run_failure? hs] at h
    cases h

end Loader

def Closure.State.answer (s : State Doc) : ClosureResult Doc :=
  match s.failure? with
  | some f => .failed f
  | none => .loaded s.units

theorem Closure.State.answer_failed {s : State Doc} {f : LoadFailure} (h : s.failure? = some f) :
    s.answer = .failed f := by
  rw [answer, h]

theorem Closure.State.answer_loaded {s : State Doc} (h : s.failure? = none) :
    s.answer = .loaded s.units := by
  rw [answer, h]

theorem Loader.loadClosure_answer {l : Loader Doc} {names : List Text}
    (hc : (l.run (l.start names)).cancelled = false) :
    (l.loadClosure names).1 = (l.run (l.start names)).answer := by
  cases hf : (l.run (l.start names)).failure? with
  | none => simp [loadClosure, hc, hf, State.answer_loaded hf]
  | some f => simp [loadClosure, hc, hf, State.answer_failed hf]

theorem Loader.loadClosure_runFor {l : Loader Doc} {names : List Text} {n : Nat}
    (h : (l.runFor n (l.start names)).queue = [])
    (hc : (l.runFor n (l.start names)).cancelled = false) :
    (l.loadClosure names).1 = (l.runFor n (l.start names)).answer := by
  rw [← l.run_eq_runFor h] at hc ⊢
  exact loadClosure_answer hc

end SliceIdl
