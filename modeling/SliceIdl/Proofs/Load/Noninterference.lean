import SliceIdl.Proofs.Load.Jobs

/-!
# Files that are not read

A run looks at a file only after it has recorded that it reads it. So two readers that answer alike
on the paths that one run has read are not told apart by it: the other run does the same jobs, one
after the other. What was not read does not matter then, be it below a later root than the one that
supplied a unit, or of a name that the initial names do not lead to.
-/

set_option autoImplicit false

namespace SliceIdl
open Closure

variable {Doc : Type}

def readPaths (es : List LoadEvent) : List Text :=
  (es.filterMap LoadEvent.read?).map Prod.fst

theorem readPaths_append (es es' : List LoadEvent) :
    readPaths (es ++ es') = readPaths es ++ readPaths es' := by
  simp [readPaths]

theorem readPaths_mono {es es' : List LoadEvent} (h : es <+: es') {path : Text}
    (hp : path ∈ readPaths es) : path ∈ readPaths es' := by
  obtain ⟨more, rfl⟩ := h
  rw [readPaths_append]
  exact List.mem_append_left _ hp

theorem Interleaves.mem {α : Type} {names : List Text} {parts : Text → List α} {whole : List α}
    (h : Interleaves names parts whole) {a : α} (ha : a ∈ whole) :
    ∃ name ∈ names, a ∈ parts name := by
  obtain ⟨tagged, rfl, hnames, hparts⟩ := h
  obtain ⟨x, hx, rfl⟩ := List.mem_map.1 ha
  have hown : x.2 ∈ ownEntries tagged x.1 :=
    List.mem_map_of_mem (List.mem_filter.2 ⟨hx, by simp⟩)
  exact ⟨x.1, hnames x hx, hparts x.1 (hnames x hx) ▸ hown⟩

def Closure.Job.path? : Job → Option Text
  | .hop p | .resume p => some p.path
  | .attempt _ _ | .notice _ | .wake => none

namespace Closure.State

/-- Events are only added, and what the new jobs look at has been read by then. -/
structure Continues (s s' : State Doc) : Prop where
  events : s.events <+: s'.events
  queue : ∀ job ∈ s'.queue, job ∈ s.queue ∨ ∀ path ∈ job.path?, path ∈ readPaths s'.events

variable {s s' s'' : State Doc}

theorem Continues.refl (s : State Doc) : Continues s s :=
  ⟨List.prefix_rfl, fun _ hj => .inl hj⟩

theorem Continues.trans (h : Continues s s') (h' : Continues s' s'') : Continues s s'' := by
  refine ⟨h.events.trans h'.events, fun job hj => ?_⟩
  rcases h'.queue job hj with hold | hnew
  · rcases h.queue job hold with hold | hnew
    · exact .inl hold
    · exact .inr fun path hp => readPaths_mono h'.events (hnew path hp)
  · exact .inr hnew

theorem Continues.of_queue_eq (hq : s'.queue = s.queue) (he : s.events <+: s'.events) :
    Continues s s' :=
  ⟨he, fun _ hj => .inl (hq ▸ hj)⟩

theorem continues_enqueue (s : State Doc) {job : Job}
    (h : ∀ path ∈ job.path?, path ∈ readPaths s.events) : Continues s (s.enqueue job) := by
  refine ⟨List.prefix_rfl, fun other hj => ?_⟩
  rcases List.mem_append.1 hj with hold | hnew
  · exact .inl hold
  · rw [List.mem_singleton] at hnew
    subst hnew
    exact .inr h

theorem continues_note (s : State Doc) (e : LoadEvent) : Continues s (s.note e) :=
  .of_queue_eq rfl (List.prefix_append ..)

theorem continues_settle (s : State Doc) (name : Text)
    (result : Except LoadFailure (LoadedUnit Doc)) : Continues s (s.settle name result) := by
  let settled : State Doc := { s with settled := s.settled ++ [(name, result)] }
  have hs : Continues s settled := .of_queue_eq rfl List.prefix_rfl
  rw [settle]
  dsimp only
  split
  · exact hs.trans (continues_enqueue settled (by simp [Job.path?]))
  · exact hs

theorem continues_rouse (s : State Doc) : Continues s s.rouse := by
  rw [rouse]
  split
  · exact .refl s
  · have h : Continues s (s.enqueue .wake) := continues_enqueue s (by simp [Job.path?])
    exact ⟨h.events, h.queue⟩

theorem continues_notice (s : State Doc) (name : Text) : Continues s (s.notice name) := by
  let noticed : State Doc := { s with watched := s.watched.filter (· != name) }
  have hs : Continues s noticed := .of_queue_eq rfl List.prefix_rfl
  rw [notice]
  dsimp only
  split
  · exact hs.trans (continues_rouse noticed)
  · exact hs

theorem continues_wake (s : State Doc) : Continues s s.wake := by
  rw [wake]
  split
  · exact ⟨List.prefix_rfl, by simp⟩
  · exact .of_queue_eq rfl List.prefix_rfl

theorem continues_requestAll (s : State Doc) (includedFrom : Option Text) (names : List Text) :
    Continues s (s.requestAll includedFrom names) := by
  cases hf : s.failure? with
  | none =>
    rw [requestAll_of_none hf]
    refine ⟨List.prefix_append .., fun job hj => ?_⟩
    rcases List.mem_append.1 hj with hold | hnew
    · exact .inl hold
    · obtain ⟨name, -, rfl⟩ := List.mem_map.1 hnew
      exact .inr (by simp [Job.path?])
  | some f =>
    rw [requestAll_of_some hf]
    exact .of_queue_eq rfl (List.prefix_append ..)

def Recorded (s : State Doc) : Prop :=
  ∀ job ∈ s.queue, ∀ path ∈ job.path?, path ∈ readPaths s.events

theorem Recorded.continues (h : s.Recorded) (hc : Continues s s') : s'.Recorded := by
  intro job hj path hp
  rcases hc.queue job hj with hold | hnew
  · exact readPaths_mono hc.events (h job hold path hp)
  · exact hnew path hp

end Closure.State

namespace Loader

variable (l : Loader Doc)

theorem tryRoots_continues (s : State Doc) (name : Text) (includedFrom : Option Text)
    (roots : List Text) : State.Continues s (l.tryRoots s name includedFrom roots) := by
  cases roots with
  | nil => exact s.continues_settle ..
  | cons root roots =>
    let read : LoadEvent := .read (probePath root name) (l.reader.read (probePath root name))
    have hpath : probePath root name ∈ readPaths (s.note read).events := by
      rw [State.note, readPaths_append]
      simp [readPaths, read, LoadEvent.read?]
    have hnote := s.continues_note read
    have hrouse := (s.note read).continues_rouse
    rw [tryRoots]
    split
    · -- Cancelling reads nothing, so the path is on record in the cancelled state as well.
      have hcancel : State.Continues (s.note read) (s.note read).cancel :=
        ⟨hrouse.events, hrouse.queue⟩
      refine (hnote.trans hcancel).trans (State.continues_enqueue _ ?_)
      simpa [Job.path?, Probe.path] using readPaths_mono hcancel.events hpath
    · refine hnote.trans (State.continues_enqueue _ ?_)
      simpa [Job.path?, Probe.path] using hpath

theorem resume_continues (s : State Doc) (p : Probe) : State.Continues s (l.resume s p) := by
  cases hr : l.reader.read p.path with
  | unreadable e =>
    rw [l.resume_unreadable s hr]
    exact (s.continues_note _).trans (l.tryRoots_continues ..)
  | broken f =>
    rw [l.resume_broken s hr]
    exact s.continues_settle ..
  | text t =>
    have hnote := s.continues_note (.parsing p.name p.path)
    cases hu : LoadedUnit.ofText l.language p.name p.root t with
    | error f =>
      rw [l.resume_refused s hr hu]
      exact hnote.trans (State.continues_settle ..)
    | ok loaded =>
      rw [l.resume_loaded s hr hu]
      exact (hnote.trans (State.continues_requestAll ..)).trans (State.continues_settle ..)

theorem perform_continues {s : State Doc} {job : Job}
    (h : ∀ path ∈ job.path?, path ∈ readPaths s.events) : State.Continues s (l.perform s job) := by
  cases job with
  | attempt name includedFrom => exact l.tryRoots_continues ..
  | hop p => exact s.continues_enqueue (by simpa [Job.path?] using h)
  | resume p => exact l.resume_continues s p
  | notice name => exact s.continues_notice name
  | wake => exact s.continues_wake

theorem recorded_perform {s : State Doc} (h : s.Recorded) {job : Job} {queue : List Job}
    (hq : s.queue = job :: queue) :
    State.Continues { s with queue } (l.perform { s with queue } job) ∧
      (l.perform { s with queue } job).Recorded := by
  have hjob : ∀ path ∈ job.path?, path ∈ readPaths s.events :=
    h job (hq ▸ List.mem_cons_self)
  have hrest : State.Recorded { s with queue } :=
    fun other hj => h other (hq ▸ List.mem_cons_of_mem _ hj)
  have hcontinues := l.perform_continues (s := { s with queue }) hjob
  exact ⟨hcontinues, hrest.continues hcontinues⟩

theorem recorded_start (names : List Text) : (l.start names).Recorded := by
  have hempty : (State.empty : State Doc).Recorded := fun job hj => absurd hj List.not_mem_nil
  have hs := hempty.continues (State.continues_requestAll State.empty none names)
  rw [start]
  split <;> exact hs

def withReader (r : Reader) : Loader Doc :=
  { l with reader := r }

/-- The other reader answers as the loader's own one on all that was read. -/
def AgreesOn (r : Reader) (es : List LoadEvent) : Prop :=
  ∀ path ∈ readPaths es, r.read path = l.reader.read path

variable {l} {r : Reader}

theorem AgreesOn.mono {es es' : List LoadEvent} (h : l.AgreesOn r es') (hp : es <+: es') :
    l.AgreesOn r es :=
  fun path hmem => h path (readPaths_mono hp hmem)

theorem AgreesOn.tryRoots {s : State Doc} {name : Text} {includedFrom : Option Text}
    {roots : List Text} (h : l.AgreesOn r (l.tryRoots s name includedFrom roots).events) :
    (l.withReader r).tryRoots s name includedFrom roots =
      l.tryRoots s name includedFrom roots := by
  cases roots with
  | nil => rfl
  | cons root roots =>
    have hread : r.read (probePath root name) = l.reader.read (probePath root name) := by
      apply h
      rw [l.tryRoots_events, readPaths_append]
      simp [firstRead, readPaths, LoadEvent.read?]
    simp only [Loader.tryRoots, withReader, Probe.path, hread]
    rfl

theorem AgreesOn.resume {s : State Doc} {p : Probe} (hp : r.read p.path = l.reader.read p.path)
    (h : l.AgreesOn r (l.resume s p).events) :
    (l.withReader r).resume s p = l.resume s p := by
  cases hr : l.reader.read p.path with
  | unreadable e =>
    have hr' : (l.withReader r).reader.read p.path = .unreadable e := hp.trans hr
    rw [l.resume_unreadable s hr] at h ⊢
    rw [(l.withReader r).resume_unreadable s hr']
    exact h.tryRoots
  | broken f =>
    have hr' : (l.withReader r).reader.read p.path = .broken f := hp.trans hr
    rw [l.resume_broken s hr, (l.withReader r).resume_broken s hr']
  | text t =>
    have hr' : (l.withReader r).reader.read p.path = .text t := hp.trans hr
    cases hu : LoadedUnit.ofText l.language p.name p.root t with
    | error f => rw [l.resume_refused s hr hu, (l.withReader r).resume_refused s hr' hu]
    | ok loaded =>
      rw [l.resume_loaded s hr hu, (l.withReader r).resume_loaded s hr' hu]
      rfl

theorem AgreesOn.perform {s : State Doc} {job : Job}
    (hj : ∀ path ∈ job.path?, path ∈ readPaths s.events)
    (h : l.AgreesOn r (l.perform s job).events) :
    (l.withReader r).perform s job = l.perform s job := by
  cases job with
  | attempt name includedFrom => exact h.tryRoots
  | resume p =>
    have hs := h.mono (l.perform_continues hj).events
    exact h.resume (hs p.path (hj p.path rfl))
  | hop | notice | wake => rfl

theorem AgreesOn.run {s : State Doc} (hs : s.Recorded) (h : l.AgreesOn r (l.run s).events) :
    (l.withReader r).run s = l.run s := by
  -- Both runs do the same job: what it looks at was read before, and the readers agree on that.
  induction s using l.run_induction with
  | nil s hq => rw [l.run_of_nil hq, (l.withReader r).run_of_nil hq]
  | cons s job queue hq ih =>
    have hjob : ∀ path ∈ job.path?, path ∈ readPaths s.events :=
      hs job (hq ▸ List.mem_cons_self)
    obtain ⟨-, hrecorded⟩ := l.recorded_perform hs hq
    rw [l.run_of_cons hq] at h ⊢
    have hperform := (h.mono (l.run_events _)).perform (s := { s with queue }) hjob
    rw [(l.withReader r).run_of_cons hq, hperform]
    exact ih hrecorded h

variable (l)

theorem loadClosure_readPaths (names : List Text) :
    readPaths (l.loadClosure names).2 = readPaths (l.run (l.start names)).events := by
  have hcomplete (es : List LoadEvent) (n : Nat) :
      readPaths (es ++ [.complete n]) = readPaths es := by
    simp [readPaths, LoadEvent.read?]
  rw [loadClosure]
  split
  · rfl
  · split
    · rfl
    · exact hcomplete ..

theorem loadClosure_reads {names : List Text} (h : (l.loadClosure names).1 ≠ .cancelled)
    {path : Text} (hp : path ∈ readPaths (l.loadClosure names).2) :
    ∃ name, l.Reachable names name ∧ ∃ outcome, (path, outcome) ∈ l.reader.probes name l.roots := by
  obtain ⟨⟨_, outcome⟩, hread, rfl⟩ := List.mem_map.1 hp
  obtain ⟨name, hname, hprobe⟩ := Interleaves.mem (l.loadClosure_loadsOnce h).1 hread
  have hsound := l.sound_of_reaches (l.run_ends names).1 (l.cancelled_of_ne h)
  have hpending := l.ledger_pending (l.run_queue (l.start names))
  exact ⟨name, hsound.reachable hpending hname, outcome, hprobe⟩

theorem mem_probes {reader : Reader} {name path : Text} {outcome : ReadOutcome}
    {roots : List Text} (h : (path, outcome) ∈ reader.probes name roots) :
    ∃ root ∈ roots, path = probePath root name ∧ outcome = reader.read path := by
  induction roots with
  | nil => cases h
  | cons root roots ih =>
    rw [Reader.probes] at h
    rcases List.mem_cons.1 h with heq | hmem
    · cases heq
      exact ⟨root, List.mem_cons_self, rfl, rfl⟩
    · split at hmem
      · obtain ⟨other, ho, hread⟩ := ih hmem
        exact ⟨other, List.mem_cons_of_mem _ ho, hread⟩
      · cases hmem

theorem loadClosure_of_read {names : List Text} {r : Reader}
    (h : ∀ path ∈ readPaths (l.loadClosure names).2, r.read path = l.reader.read path) :
    (l.withReader r).loadClosure names = l.loadClosure names := by
  rw [loadClosure_readPaths] at h
  have hrun := AgreesOn.run (l.recorded_start names) h
  have hstart : (l.withReader r).start names = l.start names := rfl
  rw [loadClosure, loadClosure, hstart, hrun]

/-- A closure and its events are the same with any other reader that answers alike on the paths that
were read. Unless the run is cancelled it is enough that it does so on what is read for each name
that the initial names lead to, below the roots up to the one that supplies it. -/
theorem loadClosure_unread (names : List Text) (r : Reader) :
    ((∀ path ∈ readPaths (l.loadClosure names).2, r.read path = l.reader.read path) →
      (l.withReader r).loadClosure names = l.loadClosure names) ∧
    ((l.loadClosure names).1 ≠ .cancelled →
      (∀ name, l.Reachable names name →
        ∀ probe ∈ l.reader.probes name l.roots, r.read probe.1 = probe.2) →
      (l.withReader r).loadClosure names = l.loadClosure names) := by
  constructor
  · exact l.loadClosure_of_read
  · intro hc h
    apply l.loadClosure_of_read
    intro path hp
    obtain ⟨name, hname, outcome, hprobe⟩ := l.loadClosure_reads hc hp
    obtain ⟨-, -, -, hread⟩ := mem_probes hprobe
    exact (h name hname _ hprobe).trans hread

/-- The files of `twoRoots`, and two more that are not read: one of a name that nothing includes,
and one below the second root of a name whose file below the first one breaks. -/
def twoRootsAndMore : Reader :=
  .ofFiles
    [("q/a.ice".toList, .unreadable .isDirectory), ("r/a.ice".toList, .text ['b', 'c']),
      ("q/b.ice".toList, .broken (.ofValue [])), ("r/b.ice".toList, .text ['z']),
      ("r/c.ice".toList, .text ['d']), ("q/z.ice".toList, .text ['a'])]

theorem reachable_twoRoots {name : Text} (h : twoRoots.Reachable [['a']] name) :
    name ∈ [['a'], ['b'], ['c'], ['d']] := by
  induction h with
  | initial h => exact List.mem_append_left [['b'], ['c'], ['d']] h
  | included _ hl hi ih =>
    simp only [List.mem_cons, List.not_mem_nil, or_false] at ih
    rcases ih with rfl | rfl | rfl | rfl
    · cases hl
      exact (by decide : ∀ n ∈ [['b'], ['c']], n ∈ [['a'], ['b'], ['c'], ['d']]) _ hi
    · cases hl
    · cases hl
      exact (by decide : ∀ n ∈ [['d']], n ∈ [['a'], ['b'], ['c'], ['d']]) _ hi
    · cases hl

theorem loadClosure_unread_twoRoots :
    twoRootsAndMore.read "r/b.ice".toList ≠ twoRoots.reader.read "r/b.ice".toList ∧
    (∀ path ∈ readPaths (twoRoots.loadClosure [['a']]).2,
      twoRootsAndMore.read path = twoRoots.reader.read path) ∧
    (twoRoots.loadClosure [['a']]).1 ≠ .cancelled ∧
    (∀ name, twoRoots.Reachable [['a']] name →
      ∀ probe ∈ twoRoots.reader.probes name twoRoots.roots,
        twoRootsAndMore.read probe.1 = probe.2) ∧
    (twoRoots.withReader twoRootsAndMore).loadClosure [['a']] = twoRoots.loadClosure [['a']] ∧
    readPaths ((twoRoots.withReader twoRootsAndMore).loadClosure [['a']]).2 =
      readPaths (twoRoots.loadClosure [['a']]).2 := by
  obtain ⟨hread, hreach⟩ := twoRoots.loadClosure_unread [['a']] twoRootsAndMore
  have hr : twoRoots.run (twoRoots.start [['a']]) =
      twoRoots.runFor 15 (twoRoots.start [['a']]) := twoRoots.run_eq_runFor (by decide)
  have hpaths : ∀ path ∈ readPaths (twoRoots.loadClosure [['a']]).2,
      twoRootsAndMore.read path = twoRoots.reader.read path := by
    rw [loadClosure_readPaths, hr]
    decide
  have hc : (twoRoots.loadClosure [['a']]).1 ≠ .cancelled :=
    twoRoots.loadClosure_ne_cancelled rfl _
  have hprobes : ∀ name, twoRoots.Reachable [['a']] name →
      ∀ probe ∈ twoRoots.reader.probes name twoRoots.roots,
        twoRootsAndMore.read probe.1 = probe.2 := by
    intro name hn
    exact (by decide : ∀ name ∈ [['a'], ['b'], ['c'], ['d']],
      ∀ probe ∈ twoRoots.reader.probes name twoRoots.roots,
        twoRootsAndMore.read probe.1 = probe.2) name (reachable_twoRoots hn)
  exact ⟨by decide, hpaths, hc, hprobes, hread hpaths,
    congrArg (fun result => readPaths result.2) (hreach hc hprobes)⟩

end Loader

end SliceIdl
