import SliceIdl.Proofs.Load.Operations
import SliceIdl.Proofs.Load.Schedule

/-!
# Runs without their watcher

The jobs of the watcher load nothing. They are taken out of a state together with all that only they
use, and every other job does the same to what is left. So a run that is not cancelled gives the
answer, and leaves the events, of a loader whose runs cannot be cancelled.
-/

set_option autoImplicit false

namespace SliceIdl
open Closure

variable {Doc : Type}

namespace Closure

def Job.loads : Job → Bool
  | .attempt _ _ | .hop _ | .resume _ => true
  | .notice _ | .wake => false

def State.unwatched (s : State Doc) : State Doc :=
  { s with
    queue := s.queue.filter Job.loads
    watched := []
    waking := false
    cancelled := false }

end Closure

def Loader.unwatched (l : Loader Doc) : Loader Doc :=
  { l with cancelOn := none }

namespace Closure.State

variable (s : State Doc)

theorem unwatched_enqueue {job : Job} (h : job.loads) :
    (s.enqueue job).unwatched = s.unwatched.enqueue job := by
  simp [unwatched, enqueue, h]

theorem unwatched_enqueue_of_not {job : Job} (h : job.loads = false) :
    (s.enqueue job).unwatched = s.unwatched := by
  simp [unwatched, enqueue, h]

theorem unwatched_settle (name : Text) (result : Except LoadFailure (LoadedUnit Doc)) :
    (s.settle name result).unwatched = s.unwatched.settle name result := by
  rw [settle, settle]
  dsimp only
  split
  · exact unwatched_enqueue_of_not _ rfl
  · rfl

theorem unwatched_rouse : s.rouse.unwatched = s.unwatched := by
  rw [rouse]
  split
  · rfl
  · exact s.unwatched_enqueue_of_not (rfl : Job.wake.loads = false)

theorem unwatched_notice (name : Text) : (s.notice name).unwatched = s.unwatched := by
  rw [notice]
  dsimp only
  split
  · exact unwatched_rouse _
  · rfl

theorem unwatched_wake (h : s.cancelled = false) : s.wake.unwatched = s.unwatched := by
  rw [wake, h, if_neg (by simp)]
  rfl

theorem unwatched_requestAll (includedFrom : Option Text) (names : List Text) :
    (s.requestAll includedFrom names).unwatched = s.unwatched.requestAll includedFrom names := by
  have hq (new : List Text) :
      ((new.map (Job.attempt · includedFrom)).filter Job.loads) =
        new.map (.attempt · includedFrom) :=
    List.filter_eq_self.2 (by simp [Job.loads])
  cases h : s.failure? with
  | none =>
    rw [requestAll_of_none h, requestAll_of_none (by exact h)]
    simp only [unwatched, List.filter_append, hq]
  | some f =>
    rw [requestAll_of_some h, requestAll_of_some (by exact h)]
    rfl

end Closure.State

namespace Loader

variable (l : Loader Doc)

theorem unwatched_start (names : List Text) :
    (l.start names).unwatched = l.unwatched.start names := by
  have h := State.unwatched_requestAll (State.empty : State Doc) none names
  rw [start]
  split <;> exact h

theorem unwatched_tryRoots (s : State Doc) (name : Text) (includedFrom : Option Text)
    (roots : List Text) : (l.tryRoots s name includedFrom roots).unwatched =
      l.unwatched.tryRoots s.unwatched name includedFrom roots := by
  cases roots with
  | nil => exact s.unwatched_settle ..
  | cons root roots =>
    rw [l.unwatched.tryRoots_cons _ rfl, tryRoots]
    rw [State.unwatched_enqueue _ rfl]
    split
    · exact congrArg (State.enqueue · _) (State.unwatched_rouse _)
    · rfl

theorem unwatched_resume (s : State Doc) (p : Probe) :
    (l.resume s p).unwatched = l.unwatched.resume s.unwatched p := by
  cases hr : l.reader.read p.path with
  | unreadable e =>
    rw [l.resume_unreadable s hr, l.unwatched.resume_unreadable _ hr]
    exact l.unwatched_tryRoots (s.note (.unreadable p.name p.root e)) ..
  | broken f =>
    rw [l.resume_broken s hr, l.unwatched.resume_broken _ hr]
    exact s.unwatched_settle ..
  | text t =>
    cases hu : LoadedUnit.ofText l.language p.name p.root t with
    | error f =>
      rw [l.resume_refused s hr hu, l.unwatched.resume_refused _ hr hu]
      exact State.unwatched_settle ..
    | ok loaded =>
      rw [l.resume_loaded s hr hu, l.unwatched.resume_loaded _ hr hu, State.unwatched_settle,
        State.unwatched_requestAll]
      rfl

theorem unwatched_perform (s : State Doc) {job : Job} (h : job.loads) :
    (l.perform s job).unwatched = l.unwatched.perform s.unwatched job := by
  cases job with
  | attempt name includedFrom => exact l.unwatched_tryRoots ..
  | hop p => exact s.unwatched_enqueue rfl
  | resume p => exact l.unwatched_resume s p
  | notice | wake => cases h

theorem unwatched_perform_of_not (s : State Doc) {job : Job} (h : job.loads = false)
    (hc : s.cancelled = false) : (l.perform s job).unwatched = s.unwatched := by
  cases job with
  | notice name => exact s.unwatched_notice name
  | wake => exact s.unwatched_wake hc
  | attempt | hop | resume => cases h

end Loader

namespace Closure.State

variable (s : State Doc)

theorem settle_cancelled (name : Text) (result : Except LoadFailure (LoadedUnit Doc)) :
    (s.settle name result).cancelled = s.cancelled := by
  rw [settle]
  dsimp only
  split <;> rfl

theorem notice_cancelled (name : Text) : (s.notice name).cancelled = s.cancelled := by
  rw [notice, rouse]
  dsimp only
  split
  · split <;> rfl
  · rfl

theorem wake_cancelled : s.wake.cancelled = s.cancelled := by
  rw [wake]
  split <;> rfl

theorem requestAll_cancelled (includedFrom : Option Text) (names : List Text) :
    (s.requestAll includedFrom names).cancelled = s.cancelled := by
  cases h : s.failure? with
  | none => rw [requestAll_of_none h]
  | some f => rw [requestAll_of_some h]

end Closure.State

namespace Loader

variable (l : Loader Doc)

theorem tryRoots_cancelled {s : State Doc} (h : s.cancelled = true) (name : Text)
    (includedFrom : Option Text) (roots : List Text) :
    (l.tryRoots s name includedFrom roots).cancelled = true := by
  cases roots with
  | nil => rw [tryRoots_nil, State.settle_cancelled, h]
  | cons root roots =>
    rw [tryRoots, State.enqueue]
    split
    · rfl
    · exact h

theorem resume_cancelled {s : State Doc} (h : s.cancelled = true) (p : Probe) :
    (l.resume s p).cancelled = true := by
  cases hr : l.reader.read p.path with
  | unreadable e =>
    rw [l.resume_unreadable s hr]
    exact l.tryRoots_cancelled (s := s.note (.unreadable p.name p.root e)) h ..
  | broken f => rw [l.resume_broken s hr, State.settle_cancelled, h]
  | text t =>
    cases hu : LoadedUnit.ofText l.language p.name p.root t with
    | error f =>
      rw [l.resume_refused s hr hu, State.settle_cancelled]
      exact h
    | ok loaded =>
      rw [l.resume_loaded s hr hu, State.settle_cancelled, State.requestAll_cancelled]
      exact h

theorem perform_cancelled {s : State Doc} (h : s.cancelled = true) (job : Job) :
    (l.perform s job).cancelled = true := by
  cases job with
  | attempt name includedFrom => exact l.tryRoots_cancelled h ..
  | hop p => exact h
  | resume p => exact l.resume_cancelled h p
  | notice name => exact (s.notice_cancelled name).trans h
  | wake => exact s.wake_cancelled.trans h

theorem run_cancelled {s : State Doc} (h : s.cancelled = true) : (l.run s).cancelled = true := by
  induction s using l.run_induction with
  | nil s hq => rwa [l.run_of_nil hq]
  | cons s job queue hq ih =>
    rw [l.run_of_cons hq]
    exact ih (l.perform_cancelled (s := { s with queue }) h job)

theorem unwatched_run {s : State Doc} (h : (l.run s).cancelled = false) :
    (l.run s).unwatched = l.unwatched.run s.unwatched := by
  induction s using l.run_induction with
  | nil s hq => rw [l.run_of_nil hq, l.unwatched.run_of_nil (by simp [State.unwatched, hq])]
  | cons s job queue hq ih =>
    rw [l.run_of_cons hq] at h ⊢
    rw [ih h]
    cases hj : job.loads with
    | true =>
      have hu : s.unwatched.queue = job :: queue.filter Job.loads := by
        simp [State.unwatched, hq, hj]
      rw [l.unwatched_perform _ hj, l.unwatched.run_of_cons hu]
      rfl
    | false =>
      have hc : s.cancelled = false := by
        rw [← Bool.not_eq_true]
        intro hs
        rw [l.run_cancelled (l.perform_cancelled (s := { s with queue }) hs job)] at h
        cases h
      rw [l.unwatched_perform_of_not { s with queue } hj hc]
      simp [State.unwatched, hq, hj]

theorem unwatched_perform_self {s : State Doc} (h : s.unwatched = s) {job : Job} {queue : List Job}
    (hq : s.queue = job :: queue) : job.loads = true ∧
      (l.unwatched.perform { s with queue } job).unwatched =
        l.unwatched.perform { s with queue } job := by
  have hall : ∀ j ∈ job :: queue, j.loads := by
    have hf := congrArg State.queue h
    rw [State.unwatched, hq] at hf
    exact List.filter_eq_self.1 hf
  have hs : State.unwatched { s with queue } = { s with queue } := by
    have hf : queue.filter Job.loads = queue :=
      List.filter_eq_self.2 fun j hj => hall j (List.mem_cons_of_mem _ hj)
    rw [← h]
    simp only [State.unwatched, hf]
  have hjob := hall job List.mem_cons_self
  refine ⟨hjob, ?_⟩
  rw [l.unwatched.unwatched_perform _ hjob, hs]
  rfl

theorem unwatched_run_self {s : State Doc} (h : s.unwatched = s) :
    (l.unwatched.run s).unwatched = l.unwatched.run s := by
  induction s using l.unwatched.run_induction with
  | nil s hq => rwa [l.unwatched.run_of_nil hq]
  | cons s job queue hq ih =>
    rw [l.unwatched.run_of_cons hq]
    exact ih (l.unwatched_perform_self h hq).2

theorem loadClosure_eq_cancelled_iff (names : List Text) :
    (l.loadClosure names).1 = .cancelled ↔ (l.run (l.start names)).cancelled = true := by
  rw [loadClosure]
  split
  · next h => simp [h]
  · next h => split <;> simp [h]

theorem cancelled_of_ne {names : List Text} (h : (l.loadClosure names).1 ≠ .cancelled) :
    (l.run (l.start names)).cancelled = false := by
  rwa [Ne, loadClosure_eq_cancelled_iff, Bool.not_eq_true] at h

theorem unwatched_loadClosure_ne (names : List Text) :
    (l.unwatched.loadClosure names).1 ≠ .cancelled := by
  have hs : (l.unwatched.start names).unwatched = l.unwatched.start names :=
    l.unwatched.unwatched_start names
  rw [Ne, loadClosure_eq_cancelled_iff, ← l.unwatched_run_self hs]
  exact Bool.false_ne_true

theorem unwatched_eq (h : l.cancelOn = none) : l.unwatched = l := by
  obtain ⟨reader, language, roots, cancelOn⟩ := l
  cases h
  rfl

theorem loadClosure_ne_cancelled (h : l.cancelOn = none) (names : List Text) :
    (l.loadClosure names).1 ≠ .cancelled := by
  rw [← l.unwatched_eq h]
  exact l.unwatched_loadClosure_ne names

/-- A run that is not cancelled answers and leaves events as if nothing could cancel it. -/
theorem loadClosure_unwatched {names : List Text} (h : (l.loadClosure names).1 ≠ .cancelled) :
    l.loadClosure names = l.unwatched.loadClosure names := by
  have hc := l.cancelled_of_ne h
  have hu := l.unwatched_run hc
  rw [unwatched_start] at hu
  rw [loadClosure, loadClosure, ← hu, hc]
  rfl

end Loader

end SliceIdl
