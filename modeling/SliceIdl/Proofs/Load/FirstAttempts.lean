import SliceIdl.Proofs.Load.FirstFailure
import SliceIdl.Proofs.Load.Jobs

/-!
# First attempts

Below its first root every load passes through the same stages, and a job queues jobs of the stage
that follows its own. So while no name has been looked for below a later root, the jobs that are
queued together are at one of two stages, the names are read for in the order of their registration,
and the first attempts that are queued stand in front of all that has come from such attempts.
-/

set_option autoImplicit false

namespace SliceIdl
open Closure

variable {Doc : Type}

namespace Closure

/-- The stages of a load below its first root; a job queues jobs of the next stage. -/
def Job.stage : Job → Fin 3
  | .attempt _ _ | .notice _ => 0
  | .hop _ | .wake => 1
  | .resume _ => 2

def Job.attempt? : Job → Option Text
  | .attempt name _ => some name
  | .hop _ | .resume _ | .notice _ | .wake => none

def State.attempts (s : State Doc) : List Text :=
  s.queue.filterMap Job.attempt?

def State.Registers (s s' : State Doc) : Prop :=
  ∃ new, s'.registered = s.registered ++ new ∧ s'.attempts = s.attempts ++ new

namespace State

variable {s s' s'' : State Doc}

theorem Registers.trans (h : Registers s s') (h' : Registers s' s'') : Registers s s'' := by
  obtain ⟨new, hr, ha⟩ := h
  obtain ⟨new', hr', ha'⟩ := h'
  exact ⟨new ++ new', by rw [hr', hr, List.append_assoc], by rw [ha', ha, List.append_assoc]⟩

theorem Registers.of_appends {kind : Job → Prop} (h : Appends kind s s')
    (hr : s'.registered = s.registered) (hk : ∀ job, kind job → job.attempt? = none) :
    Registers s s' := by
  obtain ⟨more, hq, hmore⟩ := h
  have hnone : more.filterMap Job.attempt? = [] :=
    List.filterMap_eq_nil_iff.2 fun job hj => hk job (hmore job hj)
  have ha : s'.attempts = s.attempts ++ [] := by
    rw [attempts, hq, List.filterMap_append, hnone, attempts]
  exact ⟨[], by rw [hr, List.append_nil], ha⟩

theorem registers_settle (s : State Doc) (name : Text)
    (result : Except LoadFailure (LoadedUnit Doc)) : Registers s (s.settle name result) := by
  have happends : Appends (· = .notice name) s (s.settle name result) :=
    s.appends_settle result rfl
  exact .of_appends happends (s.settle_registered ..) fun _ hj => hj ▸ rfl

theorem registers_requestAll (s : State Doc) (includedFrom : Option Text) (names : List Text) :
    Registers s (s.requestAll includedFrom names) := by
  cases hf : s.failure? with
  | none =>
    rw [requestAll_of_none hf]
    refine ⟨newNames s.registered names, rfl, ?_⟩
    rw [attempts, List.filterMap_append, List.filterMap_map]
    exact congrArg (_ ++ ·) List.filterMap_some
  | some f =>
    rw [requestAll_of_some hf]
    exact ⟨[], (List.append_nil _).symm, (List.append_nil _).symm⟩

end State

end Closure

namespace Loader

variable {l : Loader Doc} {names : List Text} {path : Text}

theorem mayTry_attempt? {name : Text} {includedFrom : Option Text} {roots : List Text} {job : Job}
    (h : MayTry name includedFrom roots job) : job.attempt? = none := by
  cases roots with
  | nil => exact h ▸ rfl
  | cons root roots =>
    rcases h with rfl | rfl <;> rfl

theorem registers_tryRoots (s : State Doc) (name : Text) (includedFrom : Option Text)
    (roots : List Text) : State.Registers s (l.tryRoots s name includedFrom roots) :=
  .of_appends (l.tryRoots_appends ..) (l.tryRoots_registered ..) fun _ => mayTry_attempt?

theorem registers_resume (s : State Doc) (p : Probe) : State.Registers s (l.resume s p) := by
  cases hr : l.reader.read p.path with
  | unreadable e =>
    rw [l.resume_unreadable s hr]
    exact registers_tryRoots (s.note _) ..
  | broken f =>
    rw [l.resume_broken s hr]
    exact s.registers_settle ..
  | text t =>
    cases hu : LoadedUnit.ofText l.language p.name p.root t with
    | error f =>
      rw [l.resume_refused s hr hu]
      exact State.registers_settle (s.note _) ..
    | ok loaded =>
      rw [l.resume_loaded s hr hu]
      exact (State.registers_requestAll (s.note _) ..).trans (State.registers_settle ..)

theorem registers_perform (s : State Doc) {job : Job} (h : job = .wake → s.cancelled = false) :
    State.Registers s (l.perform s job) := by
  have happends := l.perform_appends s h
  cases job with
  | attempt name includedFrom => exact registers_tryRoots ..
  | resume p => exact registers_resume s p
  | hop p => exact .of_appends happends rfl fun _ hj => hj ▸ rfl
  | notice name => exact .of_appends happends (s.notice_registered name) fun _ hj => hj ▸ rfl
  | wake => exact .of_appends happends s.wake_registered fun _ hj => hj.elim

variable (l)

def firstProbes (names : List Text) : List (Text × ReadOutcome) :=
  l.roots.head?.toList.flatMap fun root =>
    names.map fun name => (probePath root name, l.reader.read (probePath root name))

def FirstRootOnly (es : List LoadEvent) : Prop :=
  l.roots.length ≤ 1 ∨ ∀ name root e, .unreadable name root e ∉ es

/-- All that was read is first reads, in the order of registration, and what is queued is at two
stages that follow each other. -/
structure Staged (s : State Doc) : Prop where
  stages : s.queue.Pairwise fun a b => b.stage = a.stage ∨ b.stage = a.stage + 1
  probes : ∀ p, .hop p ∈ s.queue ∨ .resume p ∈ s.queue → l.roots = p.root :: p.otherRoots
  reads : l.firstProbes s.registered = s.reads ++ l.firstProbes s.attempts

variable {l}

theorem firstProbes_append (xs ys : List Text) :
    l.firstProbes (xs ++ ys) = l.firstProbes xs ++ l.firstProbes ys := by
  rw [firstProbes, firstProbes, firstProbes]
  cases l.roots.head? <;> simp

theorem firstProbes_nil : l.firstProbes [] = [] := by
  rw [firstProbes]
  cases l.roots.head? <;> rfl

theorem firstProbes_singleton (name : Text) :
    l.firstProbes [name] = (l.firstRead name l.roots).filterMap LoadEvent.read? := by
  rw [firstProbes, firstRead]
  cases l.roots.head? <;> rfl

variable (l)

def StaysFirst (job : Job) : Prop :=
  ∀ p e, job = .resume p → l.reader.read p.path = .unreadable e → p.otherRoots = []

variable {l}

theorem StaysFirst.stage (hroots : l.roots ≠ []) {job next : Job} (h : l.StaysFirst job)
    (hn : l.MayQueue job next) : next.stage = job.stage + 1 := by
  cases job with
  | attempt name includedFrom =>
    rw [MayQueue] at hn
    cases hr : l.roots with
    | nil => exact absurd hr hroots
    | cons root roots =>
      rw [hr] at hn
      rcases hn with rfl | rfl <;> rfl
  | hop p => exact hn ▸ rfl
  | resume p =>
    rw [MayQueue] at hn
    cases hr : l.reader.read p.path with
    | unreadable e =>
      rw [hr, h p e rfl hr] at hn
      exact hn ▸ rfl
    | broken | text =>
      rw [hr] at hn
      obtain rfl | ⟨name, rfl⟩ := hn <;> rfl
  | notice name => exact hn ▸ rfl
  | wake => exact hn.elim

theorem StaysFirst.probe {job next : Job} (h : l.StaysFirst job)
    (hjob : ∀ p, job = .hop p ∨ job = .resume p → l.roots = p.root :: p.otherRoots)
    (hn : l.MayQueue job next) {p : Probe} (hp : next = .hop p ∨ next = .resume p) :
    l.roots = p.root :: p.otherRoots := by
  cases job with
  | attempt name includedFrom =>
    rw [MayQueue] at hn
    cases hr : l.roots with
    | nil =>
      rw [hr] at hn
      subst hn
      simp at hp
    | cons root roots =>
      rw [hr] at hn
      rcases hn with rfl | rfl
      · simp at hp
      · obtain rfl : _ = p := by simpa using hp
        rfl
  | hop q =>
    subst hn
    obtain rfl : q = p := by simpa using hp
    exact hjob q (.inl rfl)
  | resume q =>
    rw [MayQueue] at hn
    cases hr : l.reader.read q.path with
    | unreadable e =>
      rw [hr, h q e rfl hr] at hn
      subst hn
      simp at hp
    | broken | text =>
      rw [hr] at hn
      obtain rfl | ⟨name, rfl⟩ := hn <;> simp at hp
  | notice name =>
    subst hn
    simp at hp
  | wake => exact hn.elim

theorem StaysFirst.readsOf {job : Job} (h : l.StaysFirst job) :
    l.readsOf job = l.firstProbes job.attempt?.toList := by
  rw [Loader.readsOf]
  cases job with
  | attempt name includedFrom => exact (firstProbes_singleton name).symm
  | resume p =>
    have hnil : l.firstProbes (Job.resume p).attempt?.toList = [] := firstProbes_nil
    rw [hnil, eventsOf]
    cases hr : l.reader.read p.path with
    | unreadable e =>
      rw [h p e rfl hr]
      rfl
    | broken f => rfl
    | text t => rfl
  | hop | notice | wake => exact firstProbes_nil.symm

theorem Staged.perform {s : State Doc} (h : l.Staged s) (hroots : l.roots ≠ []) {job : Job}
    {queue : List Job} (hq : s.queue = job :: queue) (hjob : l.StaysFirst job)
    (hc : job = .wake → s.cancelled = false) : l.Staged (l.perform { s with queue } job) := by
  obtain ⟨hstages, hprobes, hreads⟩ := h
  obtain ⟨more, hmore, hkind⟩ := l.perform_appends { s with queue } hc
  obtain ⟨new, hregistered, hattempts⟩ := registers_perform (l := l) { s with queue } hc
  rw [hq, List.pairwise_cons] at hstages
  refine ⟨?_, ?_, ?_⟩
  · have hnext : ∀ next ∈ more, next.stage = job.stage + 1 :=
      fun next hn => hjob.stage hroots (hkind next hn)
    rw [hmore, List.pairwise_append]
    refine ⟨hstages.2, List.pairwise_of_forall_mem_list fun a ha b hb => ?_, fun a ha b hb => ?_⟩
    · exact .inl ((hnext b hb).trans (hnext a ha).symm)
    · rw [hnext b hb]
      rcases hstages.1 a ha with hsame | hlater
      · exact .inr (by rw [hsame])
      · exact .inl hlater.symm
  · intro p hp
    rw [hmore, List.mem_append, List.mem_append] at hp
    have hold : ∀ q, Job.hop q ∈ s.queue ∨ Job.resume q ∈ s.queue →
        l.roots = q.root :: q.otherRoots := hprobes
    rw [hq] at hold
    have hown : ∀ q, job = .hop q ∨ job = .resume q → l.roots = q.root :: q.otherRoots := by
      rintro q (rfl | rfl)
      · exact hold q (.inl List.mem_cons_self)
      · exact hold q (.inr List.mem_cons_self)
    rcases hp with (hp | hp) | (hp | hp)
    · exact hold p (.inl (List.mem_cons_of_mem _ hp))
    · exact hjob.probe hown (hkind _ hp) (.inl rfl)
    · exact hold p (.inr (List.mem_cons_of_mem _ hp))
    · exact hjob.probe hown (hkind _ hp) (.inr rfl)
  · have hleft : (l.perform { s with queue } job).reads = s.reads ++ l.readsOf job :=
      l.perform_filterMap (fun e => LoadEvent.read?_of_not_ofLoad) { s with queue } job
    have hbefore : s.attempts = job.attempt?.toList ++ State.attempts { s with queue } := by
      rw [State.attempts, hq, List.filterMap_cons]
      cases job.attempt? <;> rfl
    rw [hregistered, hattempts, hleft, firstProbes_append, firstProbes_append, hjob.readsOf, hreads,
      hbefore, firstProbes_append]
    simp only [List.append_assoc]

theorem staged_start (names : List Text) : l.Staged (l.start names) := by
  refine ⟨?_, ?_, ?_⟩
  · rw [start_queue, List.pairwise_map]
    exact List.pairwise_of_forall fun _ _ => .inl rfl
  · rw [start_queue]
    simp
  · have hattempts : (l.start names).attempts = newNames [] names := by
      rw [State.attempts, start_queue, List.filterMap_map]
      exact List.filterMap_some
    have hreads : (l.start names).reads = [] := by
      rw [State.reads, start_events, List.filterMap_map]
      exact List.filterMap_eq_nil_iff.2 fun _ _ => rfl
    rw [start_registered, hattempts, hreads, List.nil_append]

theorem FirstRootOnly.mono {es es' : List LoadEvent} (h : l.FirstRootOnly es') (hs : es ⊆ es') :
    l.FirstRootOnly es :=
  h.imp_right fun hnone name root e he => hnone name root e (hs he)

theorem Staged.staysFirst {s : State Doc} (h : l.Staged s) {job : Job} {queue : List Job}
    (hq : s.queue = job :: queue) (hes : l.FirstRootOnly (s.events ++ l.eventsOf job)) :
    l.StaysFirst job := by
  rintro p e rfl hr
  rcases hes with hroots | hnone
  · have hp := h.probes p (.inr (hq ▸ List.mem_cons_self))
    rw [hp, List.length_cons] at hroots
    exact List.eq_nil_of_length_eq_zero (by omega)
  · have hmem : .unreadable p.name p.root e ∈ l.eventsOf (.resume p) := by
      rw [eventsOf, hr]
      exact List.mem_cons_self
    exact absurd (List.mem_append_right _ hmem) (hnone p.name p.root e)

theorem stateAfter_staged (hroots : l.roots ≠ []) (names : List Text) (n : Nat)
    (hc : (l.stateAfter names n).cancelled = false)
    (hes : l.FirstRootOnly (l.stateAfter names n).events) : l.Staged (l.stateAfter names n) := by
  refine l.stateAfter_induction
    (motive := fun s => s.cancelled = false → l.FirstRootOnly s.events → l.Staged s)
    (fun _ _ => staged_start names) (fun s job queue h hq hcancelled hevents => ?_) n hc hes
  have hbefore : s.cancelled = false := by
    rw [← Bool.not_eq_true] at hcancelled ⊢
    exact fun hs => hcancelled (l.perform_cancelled (s := { s with queue }) hs job)
  have hold : s.events ⊆ (l.perform { s with queue } job).events :=
    (l.perform_events_prefix { s with queue } job).subset
  have hnew : l.eventsOf job ⊆ (l.perform { s with queue } job).events := by
    refine List.Subset.trans ?_ (List.filter_subset_self (p := LoadEvent.ofLoad) _)
    rw [l.perform_ofLoad]
    exact List.subset_append_right ..
  have hstaged := h hbefore (hevents.mono hold)
  have hstays := hstaged.staysFirst hq (hevents.mono (List.append_subset.2 ⟨hold, hnew⟩))
  exact hstaged.perform hroots hq hstays fun _ => hbefore

end Loader

end SliceIdl
