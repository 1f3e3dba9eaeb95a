import SliceIdl.Proofs.Load.Reachability

/-!
# Fallback roots

A run in which no unit fails finds every name before it comes to the end of its roots. So roots that
are put behind the others are never tried: the run does the same jobs as before, and each of them
only has more roots left over.
-/

set_option autoImplicit false

namespace SliceIdl
open Closure

variable {Doc : Type}

def Loader.withFallback (l : Loader Doc) (extra : List Text) : Loader Doc :=
  { l with roots := l.roots ++ extra }

namespace Closure

def Probe.extended (extra : List Text) (p : Probe) : Probe :=
  { p with otherRoots := p.otherRoots ++ extra }

def Job.extended (extra : List Text) : Job → Job
  | .hop p => .hop (p.extended extra)
  | .resume p => .resume (p.extended extra)
  | job => job

def State.extended (extra : List Text) (s : State Doc) : State Doc :=
  { s with queue := s.queue.map (Job.extended extra) }

end Closure

namespace Closure.State

variable (extra : List Text) (s : State Doc)

theorem extended_enqueue (job : Job) :
    (s.enqueue job).extended extra = (s.extended extra).enqueue (job.extended extra) := by
  simp [extended, enqueue]

theorem extended_settle (name : Text) (result : Except LoadFailure (LoadedUnit Doc)) :
    (s.settle name result).extended extra = (s.extended extra).settle name result := by
  rw [settle, settle, apply_ite (extended extra), extended_enqueue]
  rfl

theorem extended_rouse : s.rouse.extended extra = (s.extended extra).rouse := by
  have hwake : extended extra { s.enqueue .wake with waking := true } =
      { (s.extended extra).enqueue .wake with waking := true } :=
    congrArg (fun s : State Doc => { s with waking := true }) (s.extended_enqueue extra .wake)
  rw [rouse, rouse, apply_ite (extended extra), hwake]
  rfl

theorem extended_cancel : s.cancel.extended extra = (s.extended extra).cancel :=
  congrArg (fun s : State Doc => { s with cancelled := true }) (s.extended_rouse extra)

theorem extended_notice (name : Text) :
    (s.notice name).extended extra = (s.extended extra).notice name := by
  rw [notice, notice, apply_ite (extended extra), extended_rouse]
  rfl

theorem extended_wake : s.wake.extended extra = (s.extended extra).wake := by
  rw [wake, wake, apply_ite (extended extra)]
  rfl

theorem extended_requestAll (includedFrom : Option Text) (names : List Text) :
    (s.requestAll includedFrom names).extended extra =
      (s.extended extra).requestAll includedFrom names := by
  have hq (new : List Text) : (new.map (Job.attempt · includedFrom)).map (Job.extended extra) =
      new.map (.attempt · includedFrom) :=
    List.map_map
  cases h : s.failure? with
  | none =>
    rw [requestAll_of_none h, requestAll_of_none (by exact h)]
    simp only [extended, List.map_append, hq]
  | some f =>
    rw [requestAll_of_some h, requestAll_of_some (by exact h)]
    rfl

end Closure.State

namespace Loader

variable (l : Loader Doc) (extra : List Text)

theorem extended_start (names : List Text) :
    (l.start names).extended extra = (l.withFallback extra).start names := by
  have h := State.extended_requestAll extra (State.empty : State Doc) none names
  rw [start, start, apply_ite (State.extended extra)]
  exact congrArg₂ (fun t s : State Doc => if l.cancelOn.isSome then t else s)
    (congrArg State.watch h) h

theorem extended_tryRoots {s : State Doc} {name : Text} {includedFrom : Option Text}
    {roots : List Text} (h : (l.tryRoots s name includedFrom roots).failure? = none) :
    (l.tryRoots s name includedFrom roots).extended extra =
      (l.withFallback extra).tryRoots (s.extended extra) name includedFrom (roots ++ extra) := by
  cases roots with
  | nil =>
    rw [tryRoots_nil] at h
    exact absurd h (s.failure?_settle_error_ne name _)
  | cons root roots =>
    rw [List.cons_append, tryRoots, tryRoots, State.extended_enqueue,
      apply_ite (State.extended extra), State.extended_cancel]
    rfl

theorem extended_resume {s : State Doc} {p : Probe} (h : (l.resume s p).failure? = none) :
    (l.resume s p).extended extra =
      (l.withFallback extra).resume (s.extended extra) (p.extended extra) := by
  cases hr : l.reader.read p.path with
  | unreadable e =>
    rw [l.resume_unreadable s hr] at h ⊢
    rw [(l.withFallback extra).resume_unreadable (p := p.extended extra) _ hr]
    exact l.extended_tryRoots extra h
  | broken f =>
    rw [l.resume_broken s hr, (l.withFallback extra).resume_broken (p := p.extended extra) _ hr]
    exact s.extended_settle ..
  | text t =>
    cases hu : LoadedUnit.ofText l.language p.name p.root t with
    | error f =>
      rw [l.resume_refused s hr hu,
        (l.withFallback extra).resume_refused (p := p.extended extra) _ hr hu]
      exact State.extended_settle ..
    | ok loaded =>
      rw [l.resume_loaded s hr hu,
        (l.withFallback extra).resume_loaded (p := p.extended extra) _ hr hu,
        State.extended_settle, State.extended_requestAll]
      rfl

theorem extended_perform {s : State Doc} {job : Job} (h : (l.perform s job).failure? = none) :
    (l.perform s job).extended extra =
      (l.withFallback extra).perform (s.extended extra) (job.extended extra) := by
  cases job with
  | attempt name includedFrom => exact l.extended_tryRoots extra h
  | hop p => exact s.extended_enqueue extra (.resume p)
  | resume p => exact l.extended_resume extra h
  | notice name => exact s.extended_notice extra name
  | wake => exact s.extended_wake extra

theorem extended_run {s : State Doc} (h : (l.run s).failure? = none) :
    (l.run s).extended extra = (l.withFallback extra).run (s.extended extra) := by
  -- The runs go on in lockstep as long as no unit fails in the one with fewer roots.
  induction s using l.run_induction with
  | nil s hq =>
    rw [l.run_of_nil hq, (l.withFallback extra).run_of_nil (by simp [State.extended, hq])]
  | cons s job queue hq ih =>
    rw [l.run_of_cons hq] at h ⊢
    have hqueue : (s.extended extra).queue =
        job.extended extra :: queue.map (Job.extended extra) := by
      rw [State.extended, hq, List.map_cons]
    rw [ih h, l.extended_perform extra (l.failure?_of_run h),
      (l.withFallback extra).run_of_cons hqueue]
    rfl

/-- A closure that can be loaded is the same, and leaves the same events, with any roots put behind
those of the loader: the same reads in the same order, the same units below the same roots, in the
same order of registration. -/
theorem loadClosure_fallback {names : List Text} {units : List (Text × LoadedUnit Doc)}
    (h : (l.loadClosure names).1 = .loaded units) :
    (l.withFallback extra).loadClosure names = l.loadClosure names := by
  have hc : (l.run (l.start names)).cancelled = false :=
    l.cancelled_of_ne fun hn => by simp [hn] at h
  have hf : (l.run (l.start names)).failure? = none := by
    rw [Option.eq_none_iff_forall_ne_some]
    intro f hf
    rw [loadClosure_answer hc, State.answer_failed hf] at h
    cases h
  have hrun := l.extended_run extra hf
  rw [extended_start] at hrun
  rw [loadClosure, loadClosure, ← hrun]
  rfl

/-- A file below the second root, which includes one below the first; both are below a third one as
well, with other texts. -/
def fallingThrough : Loader Text where
  reader := .ofFiles
    [("r/a.ice".toList, .text ['b']), ("q/b.ice".toList, .text []),
      ("s/a.ice".toList, .text ['c']), ("s/b.ice".toList, .text ['d'])]
  language := letters
  roots := [['q'], ['r']]

theorem loadClosure_fallback_fallingThrough :
    (fallingThrough.loadClosure [['a']]).1 =
      .loaded [(['a'], ⟨['r'], ['b'], ['b']⟩), (['b'], ⟨['q'], [], []⟩)] ∧
    ((fallingThrough.withFallback [['s']]).loadClosure [['a']]).1 =
      .loaded [(['a'], ⟨['r'], ['b'], ['b']⟩), (['b'], ⟨['q'], [], []⟩)] ∧
    (fallingThrough.withFallback [['s']]).loadClosure [['a']] =
      fallingThrough.loadClosure [['a']] := by
  have h : (fallingThrough.loadClosure [['a']]).1 =
      .loaded [(['a'], ⟨['r'], ['b'], ['b']⟩), (['b'], ⟨['q'], [], []⟩)] := by
    rw [loadClosure_runFor (n := 8) (by decide) (by decide)]
    rfl
  have hsame := fallingThrough.loadClosure_fallback [['s']] h
  exact ⟨h, (congrArg Prod.fst hsame).trans h, hsame⟩

end Loader

end SliceIdl
