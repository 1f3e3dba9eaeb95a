import SliceIdl.Proofs.Load.FirstFailure
import SliceIdl.Proofs.Load.Jobs
import SliceIdl.Proofs.Load.Sources

/-!
# Cancelled runs

Up to the read that cancels it, a run is the one that nothing can cancel, but for what its watcher
does. From then on it does the jobs that are queued in front of the waking of the watcher, which is
queued by then, and no others: whatever they queue stands behind that, and with it the run is over.
-/

set_option autoImplicit false

namespace SliceIdl
open Closure

variable {Doc : Type}

def Loader.cancelledBy (l : Loader Doc) (path : Text) : Loader Doc :=
  { l with cancelOn := some path }

namespace Loader

variable (l : Loader Doc)

theorem run_events_unwatched (s : State Doc) :
    (l.run s).events <+: (l.unwatched.run s.unwatched).events := by
  induction s using l.run_induction with
  | nil s hq =>
    rw [l.run_of_nil hq]
    exact l.unwatched.run_events s.unwatched
  | cons s job queue hq ih =>
    rw [l.run_of_cons hq]
    cases hj : job.loads with
    | true =>
      have hu : s.unwatched.queue = job :: queue.filter Job.loads := by
        simp [State.unwatched, hq, hj]
      rw [l.unwatched.run_of_cons hu]
      rw [l.unwatched_perform _ hj] at ih
      exact ih
    | false =>
      have hu : State.unwatched { s with queue } = s.unwatched := by
        simp [State.unwatched, hq, hj]
      by_cases hover : job = .wake ∧ s.cancelled = true
      · obtain ⟨rfl, hc⟩ := hover
        rw [perform, State.wake, if_pos hc, l.run_of_nil rfl]
        exact l.unwatched.run_events s.unwatched
      · have hperform : (l.perform { s with queue } job).unwatched = s.unwatched := by
          cases job with
          | notice name => exact (State.unwatched_notice _ name).trans hu
          | wake => exact (State.unwatched_wake _ (by simpa using hover)).trans hu
          | attempt | hop | resume => cases hj
        exact hperform ▸ ih

variable {l} {path : Text}

theorem tryRoots_cancelled_iff (hc : l.cancelOn = some path) (s : State Doc) (name : Text)
    (includedFrom : Option Text) (roots : List Text) :
    (l.tryRoots s name includedFrom roots).cancelled = true ↔
      s.cancelled = true ∨ path ∈ (l.firstRead name roots).filterMap LoadEvent.readText? := by
  cases roots with
  | nil =>
    rw [tryRoots_nil, State.settle_cancelled]
    simp [firstRead]
  | cons root roots =>
    have hread : path ∈ (l.firstRead name (root :: roots)).filterMap LoadEvent.readText? ↔
        ((l.reader.read (probePath root name)).isText && l.cancelOn == some (probePath root name))
          = true := by
      cases hr : l.reader.read (probePath root name) <;>
        simp [firstRead, LoadEvent.readText?, ReadOutcome.isText, hr, hc]
    rw [hread, tryRoots, State.enqueue]
    dsimp only
    split
    · next h => exact iff_of_true rfl (.inr h)
    · next h => exact (or_iff_left h).symm

theorem resume_cancelled_iff (hc : l.cancelOn = some path) (s : State Doc) (p : Probe) :
    (l.resume s p).cancelled = true ↔
      s.cancelled = true ∨ path ∈ (l.eventsOf (.resume p)).filterMap LoadEvent.readText? := by
  rw [eventsOf]
  cases hr : l.reader.read p.path with
  | unreadable e =>
    rw [l.resume_unreadable s hr, tryRoots_cancelled_iff hc]
    exact .rfl
  | broken f =>
    rw [l.resume_broken s hr, State.settle_cancelled]
    simp
  | text t =>
    have hnone : path ∉ [LoadEvent.parsing p.name p.path].filterMap LoadEvent.readText? :=
      List.not_mem_nil
    rw [or_iff_left hnone]
    cases hu : LoadedUnit.ofText l.language p.name p.root t with
    | error f =>
      rw [l.resume_refused s hr hu, State.settle_cancelled]
      rfl
    | ok loaded =>
      rw [l.resume_loaded s hr hu, State.settle_cancelled, State.requestAll_cancelled]
      rfl

theorem perform_cancelled_iff (hc : l.cancelOn = some path) (s : State Doc) (job : Job) :
    (l.perform s job).cancelled = true ↔
      s.cancelled = true ∨ path ∈ (l.eventsOf job).filterMap LoadEvent.readText? := by
  cases job with
  | attempt name includedFrom => exact tryRoots_cancelled_iff hc ..
  | resume p => exact resume_cancelled_iff hc s p
  | hop p => simp [perform, State.enqueue, eventsOf]
  | notice name => simp [perform, State.notice_cancelled, eventsOf]
  | wake => simp [perform, State.wake_cancelled, eventsOf]

theorem stateAfter_cancelled_iff (hc : l.cancelOn = some path) (names : List Text) (n : Nat) :
    (l.stateAfter names n).cancelled = true ↔
      path ∈ (l.stateAfter names n).events.filterMap LoadEvent.readText? := by
  refine l.stateAfter_induction (motive := fun s => s.cancelled = true ↔
    path ∈ s.events.filterMap LoadEvent.readText?) ?_ ?_ n
  · have hread : (l.start names).events.filterMap LoadEvent.readText? = [] := by
      rw [start_events, List.filterMap_map]
      exact List.filterMap_eq_nil_iff.2 fun _ _ => rfl
    rw [start_cancelled, hread]
    simp
  · intro s job queue h hq
    rw [perform_cancelled_iff hc, l.perform_filterMap fun e => LoadEvent.readText?_of_not_ofLoad,
      List.mem_append, ← h]

end Loader

namespace Closure.State

/-- Where the watcher is about to wake up, its waking is queued. -/
def WakingQueued (s : State Doc) : Prop :=
  s.waking = true → .wake ∈ s.queue

variable (s : State Doc)

theorem wakingQueued_rouse (h : s.WakingQueued) : s.rouse.WakingQueued := by
  rw [rouse]
  split
  · exact h
  · exact fun _ => List.mem_append_right _ (List.mem_singleton_self _)

theorem rouse_note_queue (e : LoadEvent) : (s.note e).rouse.queue = s.rouse.queue := by
  rw [rouse, rouse]
  by_cases h : s.waking
  · rw [if_pos h, if_pos (by exact h)]
    rfl
  · rw [if_neg h, if_neg (by exact h)]
    rfl

theorem settle_waking (name : Text) (result : Except LoadFailure (LoadedUnit Doc)) :
    (s.settle name result).waking = s.waking := by
  rw [settle]
  dsimp only
  split <;> rfl

theorem requestAll_waking (includedFrom : Option Text) (names : List Text) :
    (s.requestAll includedFrom names).waking = s.waking := by
  cases h : s.failure? with
  | none => rw [requestAll_of_none h]
  | some f => rw [requestAll_of_some h]

variable {s}

theorem WakingQueued.queues (h : s.WakingQueued) {s' : State Doc} {kind : Job → Prop}
    (hq : Appends kind s s') (hw : s'.waking = s.waking) : s'.WakingQueued := by
  intro hwaking
  obtain ⟨more, hmore, -⟩ := hq
  rw [hmore]
  exact List.mem_append_left _ (h (hw ▸ hwaking))

theorem WakingQueued.settle (h : s.WakingQueued) (name : Text)
    (result : Except LoadFailure (LoadedUnit Doc)) : (s.settle name result).WakingQueued := by
  have happends : Appends (fun _ => True) s (s.settle name result) :=
    s.appends_settle result trivial
  exact h.queues happends (s.settle_waking name result)

theorem WakingQueued.notice (h : s.WakingQueued) (name : Text) :
    (s.notice name).WakingQueued := by
  rw [State.notice]
  dsimp only
  split
  · exact wakingQueued_rouse { s with watched := s.watched.filter (· != name) } h
  · exact h

theorem WakingQueued.requestAll (h : s.WakingQueued) (includedFrom : Option Text)
    (names : List Text) : (s.requestAll includedFrom names).WakingQueued := by
  have happends : Appends (fun _ => True) s (s.requestAll includedFrom names) :=
    s.appends_requestAll names fun _ => trivial
  exact h.queues happends (s.requestAll_waking includedFrom names)

theorem WakingQueued.rouse_queue (h : s.WakingQueued) (job : Job) :
    ∃ front behind rest, s.rouse.queue ++ [job] = front ++ .wake :: behind ∧ .wake ∉ front ∧
      s.queue = front ++ rest ∧ (rest = [] ∨ ∃ others, rest = .wake :: others) := by
  -- What is queued from here on stands behind the waking, which ends the run.
  obtain ⟨more, hmore, -⟩ : Appends (fun _ => True) s s.rouse := s.appends_rouse trivial
  by_cases hw : .wake ∈ s.queue
  · obtain ⟨front, others, hq, hnot⟩ := List.eq_append_cons_of_mem hw
    exact ⟨front, others ++ more ++ [job], .wake :: others, by simp [hmore, hq], hnot, hq,
      .inr ⟨others, rfl⟩⟩
  · have hrouse : s.rouse.queue = s.queue ++ [.wake] := by
      rw [rouse, if_neg fun hwaking => hw (h hwaking)]
      rfl
    exact ⟨s.queue, [job], [], by simp [hrouse], hw, by simp, .inl rfl⟩

end Closure.State

namespace Loader

variable {l : Loader Doc} {path : Text}

theorem wakingQueued_tryRoots {s : State Doc} (h : s.WakingQueued) (name : Text)
    (includedFrom : Option Text) (roots : List Text) :
    (l.tryRoots s name includedFrom roots).WakingQueued := by
  cases roots with
  | nil => exact h.settle _ _
  | cons root roots =>
    let read : LoadEvent := .read (probePath root name) (l.reader.read (probePath root name))
    have hrouse := (s.note read).wakingQueued_rouse h
    rw [tryRoots]
    split
    · exact fun hw => List.mem_append_left _ (hrouse hw)
    · exact fun hw => List.mem_append_left _ (h hw)

theorem wakingQueued_resume {s : State Doc} (h : s.WakingQueued) (p : Probe) :
    (l.resume s p).WakingQueued := by
  have hnote (e : LoadEvent) : (s.note e).WakingQueued := h
  cases hr : l.reader.read p.path with
  | unreadable e =>
    rw [l.resume_unreadable s hr]
    exact wakingQueued_tryRoots (hnote _) _ _ _
  | broken f =>
    rw [l.resume_broken s hr]
    exact h.settle _ _
  | text t =>
    cases hu : LoadedUnit.ofText l.language p.name p.root t with
    | error f =>
      rw [l.resume_refused s hr hu]
      exact (hnote _).settle _ _
    | ok loaded =>
      rw [l.resume_loaded s hr hu]
      exact ((hnote _).requestAll _ _).settle _ _

theorem wakingQueued_perform {s : State Doc} {job : Job} {queue : List Job} (h : s.WakingQueued)
    (hc : s.cancelled = false) (hq : s.queue = job :: queue) :
    (l.perform { s with queue } job).WakingQueued := by
  by_cases hw : job = .wake
  · rw [hw, perform, State.wake, if_neg (by simp [hc])]
    exact fun hwaking => absurd hwaking Bool.false_ne_true
  · have hs : State.WakingQueued { s with queue } := by
      intro hwaking
      have hmem := h hwaking
      rw [hq] at hmem
      exact (List.mem_cons.1 hmem).resolve_left (Ne.symm hw)
    cases job with
    | attempt name includedFrom => exact wakingQueued_tryRoots hs _ _ _
    | hop p => exact fun hwaking => List.mem_append_left _ (hs hwaking)
    | resume p => exact wakingQueued_resume hs p
    | notice name => exact hs.notice name
    | wake => exact absurd rfl hw

theorem stateAfter_wakingQueued (names : List Text) (n : Nat)
    (hc : (l.stateAfter names n).cancelled = false) : (l.stateAfter names n).WakingQueued := by
  refine l.stateAfter_induction (motive := fun s => s.cancelled = false → s.WakingQueued)
    (fun _ => ?_) (fun s job queue h hq hs => ?_) n hc
  · rw [start]
    split <;> simp [State.WakingQueued, State.watch, State.requestAll_waking, State.empty]
  · have hbefore : s.cancelled = false := by
      rw [← Bool.not_eq_true] at hs ⊢
      exact fun hbefore => hs (l.perform_cancelled (s := { s with queue }) hbefore job)
    exact wakingQueued_perform (h hbefore) hbefore hq

theorem run_of_cancelled {s : State Doc} {front behind : List Job} (hc : s.cancelled = true)
    (hq : s.queue = front ++ .wake :: behind) (hw : .wake ∉ front) :
    l.run s = { l.runFor front.length s with queue := [] } := by
  have hcancelled (n : Nat) (s : State Doc) (hc : s.cancelled = true) :
      (l.runFor n s).cancelled = true := by
    induction n generalizing s with
    | zero => exact hc
    | succ n ih =>
      cases hq : s.queue with
      | nil => simp [runFor, step, hq, hc]
      | cons job queue =>
        rw [l.runFor_cons hq]
        exact ih _ (l.perform_cancelled (s := { s with queue }) hc job)
  obtain ⟨more, hmore⟩ := l.runFor_queue hq hw
  rw [← l.run_runFor front.length s, l.run_of_cons hmore, perform, State.wake,
    if_pos (hcancelled _ s hc), l.run_of_nil rfl]

theorem tryRoots_cancels (hc : l.cancelOn = some path) {s : State Doc} (hs : s.cancelled = false)
    {name : Text} {includedFrom : Option Text} {roots : List Text}
    (h : (l.tryRoots s name includedFrom roots).cancelled = true) :
    ∃ t p, l.firstRead name roots = [.read path (.text t)] ∧
      (l.tryRoots s name includedFrom roots).queue = s.rouse.queue ++ [.hop p] := by
  rw [tryRoots_cancelled_iff hc, hs] at h
  have hpath := h.resolve_left Bool.false_ne_true
  cases roots with
  | nil => cases hpath
  | cons root roots =>
    simp only [firstRead, List.head?_cons, Option.toList_some, List.map_singleton] at hpath ⊢
    cases hr : l.reader.read (probePath root name) with
    | unreadable | broken =>
      rw [hr] at hpath
      cases hpath
    | text t =>
      rw [hr] at hpath
      obtain rfl : path = probePath root name := List.mem_singleton.1 hpath
      refine ⟨t, ⟨name, includedFrom, root, roots⟩, rfl, ?_⟩
      have hif : ((l.reader.read (probePath root name)).isText &&
          l.cancelOn == some (probePath root name)) = true := by
        simp [hr, hc, ReadOutcome.isText]
      rw [tryRoots]
      split
      · exact congrArg (· ++ [_]) (s.rouse_note_queue _)
      · next hn => exact absurd hif hn

/-- What a job leaves before the read with which it cancels a run: nothing if it is the first
attempt for a name, and that a file was not readable if it goes on to the next root. -/
def LeadsTo (job : Job) (lead : List LoadEvent) : Prop :=
  (lead = [] ∧ ∃ name includedFrom, job = .attempt name includedFrom) ∨
    ∃ p e, lead = [.unreadable p.name p.root e] ∧ job = .resume p

theorem perform_cancels (hc : l.cancelOn = some path) {s : State Doc} (hs : s.cancelled = false)
    {job : Job} (h : (l.perform s job).cancelled = true) :
    ∃ lead t p, LeadsTo job lead ∧ l.eventsOf job = lead ++ [.read path (.text t)] ∧
      (l.perform s job).events = s.events ++ l.eventsOf job ∧
      (l.perform s job).queue = s.rouse.queue ++ [.hop p] := by
  cases job with
  | attempt name includedFrom =>
    obtain ⟨t, p, hread, hqueue⟩ := tryRoots_cancels hc hs h
    exact ⟨[], t, p, .inl ⟨rfl, name, includedFrom, rfl⟩, hread, l.perform_events s (by simp),
      hqueue⟩
  | resume p =>
    cases hr : l.reader.read p.path with
    | unreadable e =>
      have hperform := l.resume_unreadable s hr
      rw [perform, hperform] at h ⊢
      obtain ⟨t, q, hread, hqueue⟩ := tryRoots_cancels hc (s := s.note _) hs h
      refine ⟨[.unreadable p.name p.root e], t, q, .inr ⟨p, e, rfl, rfl⟩, ?_, ?_, ?_⟩
      · simp [eventsOf, hr, hread]
      · rw [tryRoots_events, eventsOf, hr, State.note, List.append_assoc]
        rfl
      · rw [hqueue, State.rouse_note_queue]
    | broken | text =>
      rw [perform, resume_cancelled_iff hc, hs, eventsOf, hr] at h
      simp [LoadEvent.readText?] at h
  | hop | notice | wake =>
    rw [perform_cancelled_iff hc, hs] at h
    simp [eventsOf] at h

/-- A run that is cancelled: the state before the job that reads the path, the jobs that are still
done after that one and those that are not, and the events that they leave. -/
structure CutShort (l : Loader Doc) (names : List Text) (path : Text) (s : State Doc) (job : Job)
    (front rest : List Job) (lead : List LoadEvent) (t : Text) (further : List LoadEvent) :
    Prop where
  after : ∃ n, s = l.stateAfter names n
  uncancelled : s.cancelled = false
  queue : s.queue = job :: (front ++ rest)
  waking : .wake ∉ front
  behind : rest = [] ∨ ∃ others, rest = .wake :: others
  leads : LeadsTo job lead
  reads : l.eventsOf job = lead ++ [.read path (.text t)]
  events : (l.run (l.start names)).events = s.events ++ lead ++ .read path (.text t) :: further
  ofLoad : further.filter LoadEvent.ofLoad = front.flatMap l.eventsOf
  only : (∀ p, .resume p ∉ front) → further = front.flatMap l.eventsOf

theorem exists_last_uncancelled {s : State Doc} (hs : s.cancelled = false)
    (h : (l.run s).cancelled = true) :
    ∃ n last job queue, l.runFor n s = last ∧ last.queue = job :: queue ∧
      last.cancelled = false ∧ (l.perform { last with queue } job).cancelled = true := by
  induction s using l.run_induction with
  | nil s hq =>
    rw [l.run_of_nil hq, hs] at h
    cases h
  | cons s job queue hq ih =>
    cases hc : (l.perform { s with queue } job).cancelled with
    | true => exact ⟨0, s, job, queue, rfl, hq, hs, hc⟩
    | false =>
      rw [l.run_of_cons hq] at h
      obtain ⟨n, hn⟩ := ih hc h
      exact ⟨n + 1, by rwa [l.runFor_cons hq]⟩

theorem exists_cutShort (hc : l.cancelOn = some path) {names : List Text}
    (h : (l.run (l.start names)).cancelled = true) :
    ∃ s job front rest lead t further,
      l.CutShort names path s job front rest lead t further := by
  obtain ⟨n, s, job, queue, hn, hq, hs, hcancelled⟩ :=
    exists_last_uncancelled (l.start_cancelled names) h
  obtain ⟨lead, t, p, hlead, hread, hevents, hqueue⟩ :=
    perform_cancels hc (s := { s with queue }) hs hcancelled
  have hwaking : State.WakingQueued { s with queue } := by
    intro hw
    have hmem : Job.wake ∈ s.queue := by
      rw [← hn] at hs hw ⊢
      exact stateAfter_wakingQueued names n hs hw
    rw [hq] at hmem
    refine (List.mem_cons.1 hmem).resolve_left ?_
    rintro rfl
    obtain ⟨-, _, _, hjob⟩ | ⟨_, _, -, hjob⟩ := hlead <;> cases hjob
  obtain ⟨front, behind, rest, hfront, hwake, rfl, hbehind⟩ := hwaking.rouse_queue (.hop p)
  rw [hfront] at hqueue
  let s' := l.perform { s with queue := front ++ rest } job
  have hrun : l.run (l.start names) = l.run s' := by rw [← l.run_runFor n, hn, l.run_of_cons hq]
  have hover : (l.run s').events = (l.runFor front.length s').events := by
    rw [run_of_cancelled (s := s') hcancelled hqueue hwake]
  obtain ⟨further, hfurther⟩ := l.run_events s'
  have hofLoad : further.filter LoadEvent.ofLoad = front.flatMap l.eventsOf := by
    have hleft := l.runFor_ofLoad hqueue hwake
    rw [← hover, ← hfurther, List.filter_append] at hleft
    exact List.append_cancel_left hleft
  have honly : (∀ p, .resume p ∉ front) → further = front.flatMap l.eventsOf := by
    intro hresume
    have hleft := l.runFor_events hqueue hwake hresume
    rw [← hover, ← hfurther] at hleft
    exact List.append_cancel_left hleft
  refine ⟨s, job, front, rest, lead, t, further, ⟨n, hn.symm⟩, hs, hq, hwake, hbehind, hlead, hread,
    ?_, hofLoad, honly⟩
  rw [hrun, ← hfurther, hevents, hread]
  simp

end Loader

end SliceIdl
