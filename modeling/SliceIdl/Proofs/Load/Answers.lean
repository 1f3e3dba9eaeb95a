import SliceIdl.Proofs.Load.Noninterference

/-!
# What an answer depends on

A run never looks back at its events, and it tries the next root for whatever reason a file is not
readable. So readers that give the same texts and break over the same paths have the same answer to
a list of names, although they may leave other events.
-/

set_option autoImplicit false

namespace SliceIdl
open Closure

variable {Doc : Type}

/-- An outcome without the reason for which a file is not readable. -/
def ReadOutcome.coarse : ReadOutcome → ReadOutcome
  | unreadable _ => unreadable .notFound
  | o => o

theorem ReadOutcome.coarse_unreadable {o : ReadOutcome} {e : ReadError}
    (h : o.coarse = (unreadable e).coarse) : ∃ e', o = unreadable e' := by
  cases o with
  | unreadable e' => exact ⟨e', rfl⟩
  | text | broken => cases h

theorem ReadOutcome.coarse_of_read {o o' : ReadOutcome} (h : o.coarse = o'.coarse)
    (hr : ∀ e, o' ≠ unreadable e) : o = o' := by
  cases o' with
  | unreadable e => exact absurd rfl (hr e)
  | text t | broken f =>
    cases o with
    | unreadable e => cases h
    | text | broken => exact h

/-- The same texts, and the same paths that break, for other reasons at most. -/
def Reader.Alike (r r' : Reader) : Prop :=
  ∀ path, (r.read path).coarse = (r'.read path).coarse

/-- The reader's own answers wherever another one's are alike, and the other one's elsewhere. -/
def Reader.patched (r other : Reader) : Reader where
  read path :=
    if (other.read path).coarse = (r.read path).coarse then r.read path else other.read path
  finite := by
    obtain ⟨texts, ht⟩ := r.finite
    obtain ⟨texts', ht'⟩ := other.finite
    refine ⟨texts ++ texts', fun path t h => ?_⟩
    split at h
    · exact List.mem_append_left _ (ht path t h)
    · exact List.mem_append_right _ (ht' path t h)

theorem Reader.alike_patched (r other : Reader) : other.Alike (r.patched other) := by
  intro path
  rw [patched]
  dsimp only
  split
  · next h => exact h
  · rfl

namespace Closure.State

variable (s : State Doc)

def silent : State Doc :=
  { s with events := [] }

theorem silent_note (e : LoadEvent) : (s.note e).silent = s.silent := rfl

theorem silent_enqueue (job : Job) : (s.enqueue job).silent = s.silent.enqueue job := rfl

theorem silent_settle (name : Text) (result : Except LoadFailure (LoadedUnit Doc)) :
    (s.settle name result).silent = s.silent.settle name result := by
  by_cases hw : name ∈ s.watched
  · simp [settle, silent, enqueue, hw]
  · simp [settle, silent, hw]

theorem silent_rouse : s.rouse.silent = s.silent.rouse := by
  by_cases hw : s.waking
  · simp [rouse, silent, hw]
  · simp [rouse, silent, enqueue, hw]

theorem silent_cancel : s.cancel.silent = s.silent.cancel := by
  rw [cancel, cancel, ← silent_rouse]
  rfl

theorem silent_notice (name : Text) : (s.notice name).silent = s.silent.notice name := by
  have hs : silent { s with watched := s.watched.filter (· != name) } =
      { s.silent with watched := s.silent.watched.filter (· != name) } := rfl
  rw [notice, notice]
  dsimp only
  rw [apply_ite silent, silent_rouse, hs]
  rfl

theorem silent_wake : s.wake.silent = s.silent.wake := by
  by_cases hc : s.cancelled
  · simp [wake, silent, hc]
  · simp [wake, silent, watch, isSettled, hc]

theorem silent_requestAll (includedFrom : Option Text) (names : List Text) :
    (s.requestAll includedFrom names).silent =
      (s.silent.requestAll includedFrom names).silent := by
  cases h : s.failure? with
  | none =>
    rw [requestAll_of_none h, requestAll_of_none (by exact h)]
    rfl
  | some f =>
    rw [requestAll_of_some h, requestAll_of_some (by exact h)]
    rfl

variable {s} {s' : State Doc}

theorem queue_of_silent (h : s.silent = s'.silent) : s.queue = s'.queue := by
  have hq : s.silent.queue = s'.silent.queue := by rw [h]
  exact hq

theorem cancelled_of_silent (h : s.silent = s'.silent) : s.cancelled = s'.cancelled := by
  have hc : s.silent.cancelled = s'.silent.cancelled := by rw [h]
  exact hc

theorem answer_of_silent (h : s.silent = s'.silent) : s.answer = s'.answer := by
  have ha : s.silent.answer = s'.silent.answer := by rw [h]
  exact ha

end Closure.State

namespace Loader

variable {l : Loader Doc} {r : Reader} {s s' : State Doc}

theorem silent_tryRoots (l : Loader Doc) (s : State Doc) (name : Text)
    (includedFrom : Option Text) (root : Text) (roots : List Text) :
    (l.tryRoots s name includedFrom (root :: roots)).silent =
      (if (l.reader.read (probePath root name)).isText && l.cancelOn == some (probePath root name)
        then s.silent.cancel else s.silent).enqueue (.hop ⟨name, includedFrom, root, roots⟩) := by
  cases hc : (l.reader.read (probePath root name)).isText &&
      l.cancelOn == some (probePath root name) with
  | true =>
    simp only [Loader.tryRoots, Probe.path, hc, if_true, State.silent_enqueue,
      State.silent_cancel, State.silent_note]
  | false =>
    simp only [Loader.tryRoots, Probe.path, hc, if_neg Bool.false_ne_true,
      State.silent_enqueue, State.silent_note]

theorem Alike.tryRoots (hr : r.Alike l.reader) (hs : s.silent = s'.silent) (name : Text)
    (includedFrom : Option Text) (roots : List Text) :
    ((l.withReader r).tryRoots s name includedFrom roots).silent =
      (l.tryRoots s' name includedFrom roots).silent := by
  cases roots with
  | nil =>
    rw [tryRoots_nil, tryRoots_nil, State.silent_settle, State.silent_settle, hs]
  | cons root roots =>
    have htext : (r.read (probePath root name)).isText =
        (l.reader.read (probePath root name)).isText := by
      have hcoarse := hr (probePath root name)
      revert hcoarse
      cases r.read (probePath root name) <;> cases l.reader.read (probePath root name) <;>
        simp [ReadOutcome.coarse, ReadOutcome.isText]
    rw [silent_tryRoots, silent_tryRoots, hs]
    simp only [withReader, htext]

theorem Alike.resume (hr : r.Alike l.reader) (hs : s.silent = s'.silent) (p : Probe) :
    ((l.withReader r).resume s p).silent = (l.resume s' p).silent := by
  cases hp : l.reader.read p.path with
  | unreadable e =>
    obtain ⟨e', hp'⟩ := ReadOutcome.coarse_unreadable (hp ▸ hr p.path)
    rw [l.resume_unreadable s' hp, (l.withReader r).resume_unreadable s hp']
    have hnote : (s.note (.unreadable p.name p.root e')).silent =
        (s'.note (.unreadable p.name p.root e)).silent := hs
    exact Alike.tryRoots hr hnote ..
  | broken f =>
    have hp' : r.read p.path = .broken f :=
      hp ▸ ReadOutcome.coarse_of_read (hr p.path) (by simp [hp])
    rw [l.resume_broken s' hp, (l.withReader r).resume_broken s hp', State.silent_settle,
      State.silent_settle, hs]
  | text t =>
    have hp' : r.read p.path = .text t :=
      hp ▸ ReadOutcome.coarse_of_read (hr p.path) (by simp [hp])
    cases hu : LoadedUnit.ofText l.language p.name p.root t with
    | error f =>
      rw [l.resume_refused s' hp hu, (l.withReader r).resume_refused s hp' hu,
        State.silent_settle, State.silent_settle, State.silent_note, State.silent_note, hs]
    | ok loaded =>
      rw [l.resume_loaded s' hp hu, (l.withReader r).resume_loaded s hp' hu,
        State.silent_settle, State.silent_settle, State.silent_requestAll,
        State.silent_requestAll (s'.note _), State.silent_note, State.silent_note, hs]
      rfl

theorem Alike.perform (hr : r.Alike l.reader) (hs : s.silent = s'.silent) (job : Job) :
    ((l.withReader r).perform s job).silent = (l.perform s' job).silent := by
  cases job with
  | attempt name includedFrom => exact Alike.tryRoots hr hs ..
  | hop p => exact congrArg (State.enqueue · (.resume p)) hs
  | resume p => exact Alike.resume hr hs p
  | notice name =>
    rw [Loader.perform, Loader.perform, State.silent_notice, State.silent_notice, hs]
  | wake => rw [Loader.perform, Loader.perform, State.silent_wake, State.silent_wake, hs]

theorem Alike.run (hr : r.Alike l.reader) (hs : s.silent = s'.silent) :
    ((l.withReader r).run s).silent = (l.run s').silent := by
  induction s' using l.run_induction generalizing s with
  | nil s' hq =>
    rw [l.run_of_nil hq, (l.withReader r).run_of_nil ((State.queue_of_silent hs).trans hq), hs]
  | cons s' job queue hq ih =>
    rw [l.run_of_cons hq, (l.withReader r).run_of_cons ((State.queue_of_silent hs).trans hq)]
    have hrest : State.silent { s with queue } = State.silent { s' with queue } :=
      congrArg (fun s : State Doc => { s with queue }) hs
    exact ih (Alike.perform hr hrest job)

theorem loadClosure_alike (hr : r.Alike l.reader) (names : List Text) :
    ((l.withReader r).loadClosure names).1 = (l.loadClosure names).1 := by
  have hrun := Alike.run hr (rfl : (l.start names).silent = (l.start names).silent)
  have hanswer (l : Loader Doc) : (l.loadClosure names).1 =
      if (l.run (l.start names)).cancelled then .cancelled
      else (l.run (l.start names)).answer := by
    split
    next hc => exact (l.loadClosure_eq_cancelled_iff names).2 hc
    next hc => exact loadClosure_answer (by simpa using hc)
  have hstart : (l.withReader r).start names = l.start names := rfl
  rw [hanswer, hanswer, hstart, State.cancelled_of_silent hrun, State.answer_of_silent hrun]

/-- A closure has the same answer with any other reader that is alike on what can be read for the
names that the initial names lead to. -/
theorem loadClosure_of_alike {names : List Text} (hc : (l.loadClosure names).1 ≠ .cancelled)
    (h : ∀ name, l.Reachable names name → ∀ root ∈ l.roots,
      (r.read (probePath root name)).coarse = (l.reader.read (probePath root name)).coarse) :
    ((l.withReader r).loadClosure names).1 = (l.loadClosure names).1 := by
  have hpatched : (l.withReader (l.reader.patched r)).loadClosure names = l.loadClosure names := by
    apply l.loadClosure_of_read
    intro path hp
    obtain ⟨name, hname, outcome, hprobe⟩ := l.loadClosure_reads hc hp
    obtain ⟨root, hroot, rfl, -⟩ := mem_probes hprobe
    exact if_pos (h name hname root hroot)
  rw [← hpatched]
  exact loadClosure_alike (l := l.withReader (l.reader.patched r)) (Reader.alike_patched _ r) names

end Loader

end SliceIdl
