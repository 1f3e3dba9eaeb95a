import SliceIdl.Proofs.Load.Interleaving

/-!
# What a job leaves

An attempt reads the file of its name below the first root. Looking at what was read leaves that it
was not readable, with the read below the next root if there is one, or that its text is handed to
the parser. No other job has anything to do with a file. So what the loads leave is known from the
jobs alone, and so it is for jobs that stand at the head of a queue, because whatever they queue is
put behind them.
-/

set_option autoImplicit false

namespace SliceIdl
open Closure

variable {Doc : Type}

namespace Closure.State

def reads (s : State Doc) : List (Text × ReadOutcome) :=
  s.events.filterMap LoadEvent.read?

variable (s : State Doc)

theorem settle_events (name : Text) (result : Except LoadFailure (LoadedUnit Doc)) :
    (s.settle name result).events = s.events := by
  rw [settle]
  dsimp only
  split <;> rfl

theorem rouse_events : s.rouse.events = s.events := by
  rw [rouse]
  split <;> rfl

theorem notice_events (name : Text) : (s.notice name).events = s.events := by
  rw [notice]
  dsimp only
  split
  · exact rouse_events _
  · rfl

theorem wake_events : s.wake.events = s.events := by
  rw [wake]
  split <;> rfl

theorem requestAll_events_prefix (includedFrom : Option Text) (names : List Text) :
    s.events <+: (s.requestAll includedFrom names).events := by
  cases h : s.failure? with
  | none => exact requestAll_of_none h .. ▸ List.prefix_append ..
  | some f => exact requestAll_of_some h .. ▸ List.prefix_append ..

theorem requestAll_ofLoad (includedFrom : Option Text) (names : List Text) :
    (s.requestAll includedFrom names).events.filter LoadEvent.ofLoad =
      s.events.filter LoadEvent.ofLoad := by
  cases h : s.failure? with
  | none =>
    rw [requestAll_of_none h, List.filter_append, Loader.ofLoad_registered, List.append_nil]
  | some f =>
    rw [requestAll_of_some h, List.filter_append, Loader.ofLoad_notStarted, List.append_nil]

end Closure.State

namespace Loader

variable (l : Loader Doc)

def firstRead (name : Text) (roots : List Text) : List LoadEvent :=
  roots.head?.toList.map fun root =>
    .read (probePath root name) (l.reader.read (probePath root name))

def eventsOf : Job → List LoadEvent
  | .attempt name _ => l.firstRead name l.roots
  | .resume p =>
    match l.reader.read p.path with
    | .unreadable e => .unreadable p.name p.root e :: l.firstRead p.name p.otherRoots
    | .broken _ => []
    | .text _ => [.parsing p.name p.path]
  | .hop _ | .notice _ | .wake => []

def readsOf (job : Job) : List (Text × ReadOutcome) :=
  (l.eventsOf job).filterMap LoadEvent.read?

theorem tryRoots_events (s : State Doc) (name : Text) (includedFrom : Option Text)
    (roots : List Text) : (l.tryRoots s name includedFrom roots).events =
      s.events ++ l.firstRead name roots := by
  cases roots with
  | nil =>
    rw [tryRoots_nil, State.settle_events]
    exact (List.append_nil _).symm
  | cons root roots =>
    rw [tryRoots, State.enqueue]
    dsimp only
    split
    · exact State.rouse_events _
    · rfl

theorem perform_events (s : State Doc) {job : Job} (h : ∀ p, job ≠ .resume p) :
    (l.perform s job).events = s.events ++ l.eventsOf job := by
  cases job with
  | attempt name includedFrom => exact l.tryRoots_events ..
  | hop p => exact (List.append_nil _).symm
  | resume p => exact absurd rfl (h p)
  | notice name => exact (s.notice_events name).trans (List.append_nil _).symm
  | wake => exact s.wake_events.trans (List.append_nil _).symm

theorem firstRead_ofLoad (name : Text) (roots : List Text) :
    (l.firstRead name roots).filter LoadEvent.ofLoad = l.firstRead name roots := by
  cases roots <;> rfl

theorem eventsOf_ofLoad (job : Job) :
    (l.eventsOf job).filter LoadEvent.ofLoad = l.eventsOf job := by
  cases job with
  | attempt name includedFrom => exact l.firstRead_ofLoad ..
  | hop | notice | wake => rfl
  | resume p =>
    rw [eventsOf]
    split
    · rw [List.filter_cons_of_pos rfl, firstRead_ofLoad]
    · rfl
    · rfl

theorem resume_events_prefix (s : State Doc) (p : Probe) :
    s.events <+: (l.resume s p).events := by
  have hnote (e : LoadEvent) : s.events <+: (s.note e).events := List.prefix_append ..
  cases hr : l.reader.read p.path with
  | unreadable e =>
    rw [l.resume_unreadable s hr, tryRoots_events]
    exact (hnote _).trans (List.prefix_append ..)
  | broken f =>
    rw [l.resume_broken s hr]
    exact (s.settle_events ..).symm ▸ List.prefix_rfl
  | text t =>
    cases hu : LoadedUnit.ofText l.language p.name p.root t with
    | error f =>
      rw [l.resume_refused s hr hu, State.settle_events]
      exact hnote _
    | ok loaded =>
      rw [l.resume_loaded s hr hu, State.settle_events]
      exact (hnote _).trans (State.requestAll_events_prefix ..)

theorem resume_ofLoad (s : State Doc) (p : Probe) :
    (l.resume s p).events.filter LoadEvent.ofLoad =
      s.events.filter LoadEvent.ofLoad ++ l.eventsOf (.resume p) := by
  cases hr : l.reader.read p.path with
  | unreadable e =>
    rw [l.resume_unreadable s hr, tryRoots_events, List.filter_append, firstRead_ofLoad,
      State.note, List.filter_append, List.append_assoc, eventsOf, hr]
    rfl
  | broken f =>
    rw [l.resume_broken s hr, State.settle_events, eventsOf, hr, List.append_nil]
  | text t =>
    have hnote : (s.note (.parsing p.name p.path)).events.filter LoadEvent.ofLoad =
        s.events.filter LoadEvent.ofLoad ++ [.parsing p.name p.path] :=
      List.filter_append ..
    rw [eventsOf, hr]
    cases hu : LoadedUnit.ofText l.language p.name p.root t with
    | error f => rw [l.resume_refused s hr hu, State.settle_events, hnote]
    | ok loaded =>
      rw [l.resume_loaded s hr hu, State.settle_events, State.requestAll_ofLoad, hnote]

theorem perform_ofLoad (s : State Doc) (job : Job) :
    (l.perform s job).events.filter LoadEvent.ofLoad =
      s.events.filter LoadEvent.ofLoad ++ l.eventsOf job := by
  cases job with
  | resume p => exact l.resume_ofLoad s p
  | attempt | hop | notice | wake =>
    rw [l.perform_events s (by simp), List.filter_append, eventsOf_ofLoad]

theorem start_queue (names : List Text) :
    (l.start names).queue = (newNames [] names).map (.attempt · none) := by
  rw [start, State.requestAll_empty]
  split <;> rfl

theorem start_registered (names : List Text) :
    (l.start names).registered = newNames [] names := by
  rw [start, State.requestAll_empty]
  split <;> rfl

theorem start_events (names : List Text) :
    (l.start names).events = (newNames [] names).map (.registered · none) := by
  rw [start, State.requestAll_empty]
  split <;> rfl

theorem start_cancelled (names : List Text) : (l.start names).cancelled = false := by
  rw [start, State.requestAll_empty]
  split <;> rfl

theorem perform_filterMap {α : Type} {f : LoadEvent → Option α}
    (hf : ∀ e, e.ofLoad = false → f e = none) (s : State Doc) (job : Job) :
    (l.perform s job).events.filterMap f =
      s.events.filterMap f ++ (l.eventsOf job).filterMap f := by
  rw [← filterMap_ofLoad f hf, perform_ofLoad, List.filterMap_append, filterMap_ofLoad f hf]

theorem perform_events_prefix (s : State Doc) (job : Job) :
    s.events <+: (l.perform s job).events := by
  cases job with
  | resume p => exact l.resume_events_prefix s p
  | attempt | hop | notice | wake =>
    rw [l.perform_events s (by simp)]
    exact List.prefix_append ..

theorem run_events (s : State Doc) : s.events <+: (l.run s).events := by
  induction s using l.run_induction with
  | nil s hq => exact (l.run_of_nil hq).symm ▸ List.prefix_rfl
  | cons s job queue hq ih =>
    rw [l.run_of_cons hq]
    exact (l.perform_events_prefix { s with queue } job).trans ih

end Loader

namespace Closure.State

/-- The later state has the queue of the earlier one, with jobs of some kind put behind it. -/
def Appends (kind : Job → Prop) (s s' : State Doc) : Prop :=
  ∃ more, s'.queue = s.queue ++ more ∧ ∀ job ∈ more, kind job

variable {kind : Job → Prop} {s s' s'' : State Doc}

theorem Appends.of_eq (h : s'.queue = s.queue) : Appends kind s s' :=
  ⟨[], by simp [h], by simp⟩

theorem Appends.trans (h : Appends kind s s') (h' : Appends kind s' s'') :
    Appends kind s s'' := by
  obtain ⟨more, hq, hk⟩ := h
  obtain ⟨more', hq', hk'⟩ := h'
  refine ⟨more ++ more', by rw [hq', hq, List.append_assoc], fun job hj => ?_⟩
  exact (List.mem_append.1 hj).elim (hk job) (hk' job)

theorem appends_enqueue (s : State Doc) {job : Job} (h : kind job) :
    Appends kind s (s.enqueue job) :=
  ⟨[job], rfl, List.forall_mem_singleton.2 h⟩

theorem appends_settle (s : State Doc) {name : Text}
    (result : Except LoadFailure (LoadedUnit Doc)) (h : kind (.notice name)) :
    Appends kind s (s.settle name result) := by
  rw [settle]
  dsimp only
  split
  · exact appends_enqueue { s with settled := s.settled ++ [(name, result)] } h
  · exact .of_eq rfl

theorem appends_rouse (s : State Doc) (h : kind .wake) : Appends kind s s.rouse := by
  rw [rouse]
  split
  · exact .of_eq rfl
  · exact appends_enqueue s h

theorem appends_notice (s : State Doc) (name : Text) (h : kind .wake) :
    Appends kind s (s.notice name) := by
  rw [notice]
  dsimp only
  split
  · exact appends_rouse { s with watched := s.watched.filter (· != name) } h
  · exact .of_eq rfl

theorem appends_requestAll (s : State Doc) {includedFrom : Option Text} (names : List Text)
    (h : ∀ name, kind (.attempt name includedFrom)) :
    Appends kind s (s.requestAll includedFrom names) := by
  cases hf : s.failure? with
  | none =>
    rw [requestAll_of_none hf]
    refine ⟨_, rfl, fun job hj => ?_⟩
    obtain ⟨name, -, rfl⟩ := List.mem_map.1 hj
    exact h name
  | some f =>
    rw [requestAll_of_some hf]
    exact .of_eq rfl

end Closure.State

namespace Loader

variable (l : Loader Doc)

def MayTry (name : Text) (includedFrom : Option Text) : List Text → Job → Prop
  | [], job => job = .notice name
  | root :: roots, job => job = .wake ∨ job = .hop ⟨name, includedFrom, root, roots⟩

def MayQueue : Job → Job → Prop
  | .attempt name includedFrom, job => MayTry name includedFrom l.roots job
  | .hop p, job => job = .resume p
  | .resume p, job =>
    match l.reader.read p.path with
    | .unreadable _ => MayTry p.name p.includedFrom p.otherRoots job
    | _ => job = .notice p.name ∨ ∃ name, job = .attempt name (some p.name)
  | .notice _, job => job = .wake
  | .wake, _ => False

theorem tryRoots_appends (s : State Doc) (name : Text) (includedFrom : Option Text)
    (roots : List Text) : State.Appends (MayTry name includedFrom roots) s
      (l.tryRoots s name includedFrom roots) := by
  cases roots with
  | nil => exact s.appends_settle _ rfl
  | cons root roots =>
    rw [tryRoots]
    split
    · exact (State.appends_rouse (s.note _) (.inl rfl)).trans
        (State.appends_enqueue (s.note _).cancel (.inr rfl))
    · exact State.appends_enqueue (s.note _) (.inr rfl)

theorem resume_appends (s : State Doc) (p : Probe) :
    State.Appends (l.MayQueue (.resume p)) s (l.resume s p) := by
  cases hr : l.reader.read p.path with
  | unreadable e =>
    have hkind : l.MayQueue (.resume p) = MayTry p.name p.includedFrom p.otherRoots := by
      funext job
      simp only [MayQueue, hr]
    rw [l.resume_unreadable s hr, hkind]
    exact l.tryRoots_appends (s.note _) ..
  | broken f =>
    rw [l.resume_broken s hr]
    exact s.appends_settle _ (by simp [MayQueue, hr])
  | text t =>
    cases hu : LoadedUnit.ofText l.language p.name p.root t with
    | error f =>
      rw [l.resume_refused s hr hu]
      exact State.appends_settle (s.note _) _ (by simp [MayQueue, hr])
    | ok loaded =>
      rw [l.resume_loaded s hr hu]
      exact (State.appends_requestAll (s.note _) _ (by simp [MayQueue, hr])).trans
        (State.appends_settle _ _ (by simp [MayQueue, hr]))

theorem perform_appends (s : State Doc) {job : Job} (h : job = .wake → s.cancelled = false) :
    State.Appends (l.MayQueue job) s (l.perform s job) := by
  cases job with
  | attempt name includedFrom => exact l.tryRoots_appends ..
  | hop p => exact s.appends_enqueue rfl
  | resume p => exact l.resume_appends s p
  | notice name => exact s.appends_notice name rfl
  | wake =>
    rw [perform, State.wake, h rfl, if_neg Bool.false_ne_true]
    exact .of_eq rfl

theorem runFor_cons {s : State Doc} {job : Job} {queue : List Job} (h : s.queue = job :: queue)
    (n : Nat) : l.runFor (n + 1) s = l.runFor n (l.perform { s with queue } job) := by
  rw [runFor, l.step_of_cons h]

theorem run_runFor (n : Nat) (s : State Doc) : l.run (l.runFor n s) = l.run s := by
  induction n generalizing s with
  | zero => rfl
  | succ n ih =>
    cases hq : s.queue with
    | nil =>
      rw [runFor]
      simp [step, hq]
    | cons job queue => rw [l.runFor_cons hq, ih, l.run_of_cons hq]

theorem runFor_moves (n : Nat) (s : State Doc) :
    Relation.ReflTransGen l.Moves s (l.runFor n s) := by
  induction n generalizing s with
  | zero => exact .refl
  | succ n ih =>
    cases hq : s.queue with
    | nil =>
      rw [runFor]
      simp [step, hq, Relation.ReflTransGen.refl]
    | cons job queue =>
      rw [l.runFor_cons hq]
      exact .head (@Moves.perform _ l s [] queue job hq) (ih _)

variable {l}

theorem runFor_queue {s : State Doc} {front back : List Job} (h : s.queue = front ++ back)
    (hw : .wake ∉ front) : ∃ more, (l.runFor front.length s).queue = back ++ more := by
  induction front generalizing s back with
  | nil => exact ⟨[], h.trans (List.append_nil back).symm⟩
  | cons job front ih =>
    rw [List.cons_append] at h
    rw [List.mem_cons, not_or] at hw
    obtain ⟨more, hq, -⟩ := l.perform_appends { s with queue := front ++ back }
      fun hj : job = .wake => absurd hj.symm hw.1
    obtain ⟨more', hq'⟩ := ih (hq.trans (List.append_assoc ..)) hw.2
    exact ⟨more ++ more', by rw [List.length_cons, l.runFor_cons h, hq', List.append_assoc]⟩

theorem runFor_ofLoad {s : State Doc} {front back : List Job} (h : s.queue = front ++ back)
    (hw : .wake ∉ front) : (l.runFor front.length s).events.filter LoadEvent.ofLoad =
      s.events.filter LoadEvent.ofLoad ++ front.flatMap l.eventsOf := by
  induction front generalizing s back with
  | nil => exact (List.append_nil _).symm
  | cons job front ih =>
    rw [List.cons_append] at h
    rw [List.mem_cons, not_or] at hw
    obtain ⟨more, hq, -⟩ := l.perform_appends { s with queue := front ++ back }
      fun hj : job = .wake => absurd hj.symm hw.1
    rw [List.length_cons, l.runFor_cons h, ih (hq.trans (List.append_assoc ..)) hw.2,
      perform_ofLoad, List.append_assoc, List.flatMap_cons]

theorem runFor_events {s : State Doc} {front back : List Job} (h : s.queue = front ++ back)
    (hw : .wake ∉ front) (hr : ∀ p, .resume p ∉ front) :
    (l.runFor front.length s).events = s.events ++ front.flatMap l.eventsOf := by
  induction front generalizing s back with
  | nil => exact (List.append_nil _).symm
  | cons job front ih =>
    rw [List.cons_append] at h
    simp only [List.mem_cons, not_or] at hw hr
    obtain ⟨more, hq, -⟩ := l.perform_appends { s with queue := front ++ back }
      fun hj : job = .wake => absurd hj.symm hw.1
    rw [List.length_cons, l.runFor_cons h, ih (hq.trans (List.append_assoc ..)) hw.2
      fun p => (hr p).2, l.perform_events _ fun p hj => (hr p).1 hj.symm, List.append_assoc,
      List.flatMap_cons]

end Loader

end SliceIdl
