import Mathlib.Algebra.GroupWithZero.Nat
import SliceIdl.Proofs.Load.FirstFailure
import SliceIdl.Proofs.Load.Jobs
import SliceIdl.Proofs.Load.Sources

/-!
# How long a run takes

A run registers initial names and names that some file includes, each of them once, and for each of
them it reads one file below a root at most. There is one job for every name, its first attempt, and
there are two for every read, so the register and the reads tell how many jobs a run does.
-/

set_option autoImplicit false

namespace SliceIdl
open Closure

variable {Doc : Type}

/-- How many of the jobs for a name or for a read are left when this one is the next of them. -/
def Closure.Job.left : Job → Nat
  | .hop _ => 2
  | .attempt _ _ | .resume _ => 1
  | .notice _ | .wake => 0

namespace Closure.State

/-- How many of the loading jobs are done, if there is one for every name and two for every read. -/
def jobsDone (s : State Doc) : Int :=
  s.registered.length + 2 * s.reads.length - (s.queue.map Job.left).sum

variable (s : State Doc)

theorem jobsDone_of_nil (h : s.queue = []) :
    s.jobsDone = s.registered.length + 2 * s.reads.length := by
  simp [jobsDone, h]

theorem jobsDone_enqueue (job : Job) : (s.enqueue job).jobsDone = s.jobsDone - job.left := by
  simp [jobsDone, enqueue, reads]
  omega

theorem jobsDone_next {job : Job} {queue : List Job} (h : s.queue = job :: queue) :
    jobsDone { s with queue } = s.jobsDone + job.left := by
  simp [jobsDone, h, reads]
  omega

theorem jobsDone_note {e : LoadEvent} (h : e.read? = none) : (s.note e).jobsDone = s.jobsDone := by
  simp [jobsDone, note, reads, h]

theorem jobsDone_read (path : Text) (outcome : ReadOutcome) :
    (s.note (.read path outcome)).jobsDone = s.jobsDone + 2 := by
  simp [jobsDone, note, reads, LoadEvent.read?]
  omega

theorem jobsDone_settle (name : Text) (result : Except LoadFailure (LoadedUnit Doc)) :
    (s.settle name result).jobsDone = s.jobsDone := by
  rw [settle]
  dsimp only
  split
  · exact (jobsDone_enqueue _ (.notice name)).trans (Int.sub_zero _)
  · rfl

theorem jobsDone_cancel : s.cancel.jobsDone = s.jobsDone := by
  rw [cancel, rouse]
  split
  · rfl
  · exact (s.jobsDone_enqueue .wake).trans (Int.sub_zero _)

theorem jobsDone_requestAll (includedFrom : Option Text) (names : List Text) :
    (s.requestAll includedFrom names).jobsDone = s.jobsDone := by
  have hreads : (s.requestAll includedFrom names).reads = s.reads := by
    rw [reads, ← Loader.filterMap_ofLoad _ fun e => LoadEvent.read?_of_not_ofLoad,
      requestAll_ofLoad, Loader.filterMap_ofLoad _ fun e => LoadEvent.read?_of_not_ofLoad, reads]
  rw [jobsDone, hreads]
  cases h : s.failure? with
  | none =>
    rw [requestAll_of_none h]
    simp [jobsDone, Job.left, Function.comp_def]
    omega
  | some f =>
    rw [requestAll_of_some h]
    rfl

end Closure.State

namespace Loader

variable (l : Loader Doc)

theorem jobsDone_tryRoots (s : State Doc) (name : Text) (includedFrom : Option Text)
    (roots : List Text) : (l.tryRoots s name includedFrom roots).jobsDone = s.jobsDone := by
  cases roots with
  | nil => exact s.jobsDone_settle ..
  | cons root roots =>
    have hhop (s : State Doc) (p : Probe) : (s.enqueue (.hop p)).jobsDone = s.jobsDone - 2 :=
      s.jobsDone_enqueue (.hop p)
    rw [tryRoots, hhop]
    split
    · rw [State.jobsDone_cancel, State.jobsDone_read, Int.add_sub_cancel]
    · rw [State.jobsDone_read, Int.add_sub_cancel]

theorem jobsDone_resume (s : State Doc) (p : Probe) :
    (l.resume s p).jobsDone = s.jobsDone := by
  cases hr : l.reader.read p.path with
  | unreadable e => rw [l.resume_unreadable s hr, jobsDone_tryRoots, s.jobsDone_note rfl]
  | broken f => rw [l.resume_broken s hr, State.jobsDone_settle]
  | text t =>
    cases hu : LoadedUnit.ofText l.language p.name p.root t with
    | error f => rw [l.resume_refused s hr hu, State.jobsDone_settle, s.jobsDone_note rfl]
    | ok loaded =>
      rw [l.resume_loaded s hr hu, State.jobsDone_settle, State.jobsDone_requestAll,
        s.jobsDone_note rfl]

theorem jobsDone_perform {s : State Doc} {job : Job} {queue : List Job}
    (hq : s.queue = job :: queue) (h : job.loads = true) :
    (l.perform { s with queue } job).jobsDone = s.jobsDone + 1 := by
  have hnext := s.jobsDone_next hq
  cases job with
  | attempt name includedFrom => exact (l.jobsDone_tryRoots ..).trans hnext
  | hop p =>
    rw [perform, State.jobsDone_enqueue, hnext]
    exact Int.add_sub_assoc ..
  | resume p => exact (l.jobsDone_resume ..).trans hnext
  | notice | wake => cases h

theorem jobsDone_start (names : List Text) : (l.start names).jobsDone = 0 := by
  have h : ((State.empty : State Doc).requestAll none names).jobsDone = 0 :=
    State.jobsDone_requestAll ..
  rw [start]
  split <;> exact h

/-- A run is over after some number of jobs, and not before. Where nothing can cancel it, these are
the jobs that the register and the reads call for. -/
theorem run_jobs (s : State Doc) :
    ∃ n, l.run s = l.runFor n s ∧ (∀ m, (l.runFor m s).queue = [] ↔ n ≤ m) ∧
      (l.cancelOn = none → s.unwatched = s → (l.run s).jobsDone = s.jobsDone + n) := by
  induction s using l.run_induction with
  | nil s hq =>
    have hfor (m : Nat) : l.runFor m s = s := by
      cases m with
      | zero => rfl
      | succ m => simp [runFor, step, hq]
    exact ⟨0, l.run_of_nil hq, fun m => by simp [hfor, hq], fun _ _ => by simp [l.run_of_nil hq]⟩
  | cons s job queue hq ih =>
    obtain ⟨n, hrun, hover, hcount⟩ := ih
    refine ⟨n + 1, ?_, fun m => ?_, fun hc hs => ?_⟩
    · rw [l.run_of_cons hq, hrun, l.runFor_cons hq]
    · cases m with
      | zero => simp [runFor, hq]
      | succ m => rw [l.runFor_cons hq, hover, Nat.succ_le_succ_iff]
    · obtain ⟨hjob, hself⟩ := l.unwatched_perform_self hs hq
      rw [l.unwatched_eq hc] at hself
      rw [l.run_of_cons hq, hcount hc hself, l.jobsDone_perform hq hjob]
      push_cast
      omega

theorem length_le_of_ownEntries {α : Type} {names : List Text} {tagged : List (Text × α)} {k : Nat}
    (hnames : ∀ x ∈ tagged, x.1 ∈ names) (hown : ∀ n ∈ names, (ownEntries tagged n).length ≤ k) :
    tagged.length ≤ k * names.length := by
  induction names generalizing tagged with
  | nil => simp [List.eq_nil_iff_forall_not_mem.2 fun x hx => List.not_mem_nil (hnames x hx)]
  | cons name names ih =>
    let others := tagged.filter fun x => x.1 ≠ name
    have hsplit : tagged.length = (ownEntries tagged name).length + others.length := by
      rw [tagged.length_eq_length_filter_add fun x => x.1 = name]
      simp [ownEntries, others]
    have hothers : ∀ x ∈ others, x.1 ∈ names := by
      intro x hx
      obtain ⟨hmem, hne⟩ := List.mem_filter.1 hx
      exact (List.mem_cons.1 (hnames x hmem)).resolve_left (by simpa using hne)
    have hle (n : Text) : (ownEntries others n).length ≤ (ownEntries tagged n).length := by
      simp only [ownEntries, List.length_map]
      exact (List.Sublist.filter _ List.filter_sublist).length_le
    have hrest := ih hothers fun n hn => (hle n).trans (hown n (List.mem_cons_of_mem _ hn))
    have hfirst := hown name List.mem_cons_self
    rw [List.length_cons, Nat.mul_succ]
    omega

theorem probes_length_le (reader : Reader) (name : Text) (roots : List Text) :
    (reader.probes name roots).length ≤ roots.length := by
  induction roots with
  | nil => exact Nat.le_refl 0
  | cons root roots ih =>
    rw [Reader.probes]
    cases reader.read (probePath root name) with
    | unreadable e => exact Nat.succ_le_succ ih
    | broken | text => simp

/-- The document of some file includes the name. -/
def IncludedByFile (name : Text) : Prop :=
  ∃ path t document, l.reader.read path = .text t ∧ l.language.parse t = .ok document ∧
    name ∈ l.language.includes document

variable {l} {names : List Text}

theorem Reachable.known {name : Text} (h : l.Reachable names name) :
    name ∈ names ∨ l.IncludedByFile name := by
  cases h with
  | initial h => exact .inl h
  | included _ hl hi =>
    obtain ⟨-, hread, hparse⟩ := loadUnit_first hl
    exact .inr ⟨_, _, _, hread, hparse, hi⟩

theorem Sound.reachable_of_registered {b : Ledger Doc} (h : l.Sound names b) {name : Text}
    (hn : name ∈ b.registered) : l.Reachable names name := by
  rw [← Multiset.mem_coe, ← h.named, Multiset.mem_add] at hn
  rcases hn with hflight | hdone
  · obtain ⟨a, ha, rfl⟩ := Multiset.mem_map.1 hflight
    exact (h.pending a ha).1.reachable
  · obtain ⟨r, hr, rfl⟩ := List.mem_map.1 (Multiset.mem_coe.1 hdone)
    obtain ⟨origin, ho, -⟩ := h.settled r hr
    exact ho.reachable

theorem Traced.reads_le {b : Ledger Doc} (hs : l.Sound names b) (h : l.Traced b) :
    (b.events.filterMap LoadEvent.read?).length ≤ l.roots.length * b.registered.length := by
  obtain ⟨parts, hparts, hleft⟩ := h.interleaves hs
  have hkept := hparts.filterMap LoadEvent.read?
  rw [filterMap_ofLoad _ fun e => LoadEvent.read?_of_not_ofLoad] at hkept
  obtain ⟨tagged, hmap, hnames, hown⟩ := hkept
  rw [← hmap, List.length_map]
  refine length_le_of_ownEntries hnames fun n hn => ?_
  have hread : (parts n).filterMap LoadEvent.read? <+: l.reader.probes n l.roots :=
    loadUnit_reads ▸ (hleft n hn).filterMap _
  rw [hown n hn]
  exact hread.length_le.trans (probes_length_le ..)

variable (l)

/-- A run comes to its end, whatever its files include: its queue is empty after some number of
jobs, and that is one for each name and two for each read if nothing can cancel it. All that it
ever registers is initial names and names that some file includes, each of them once, and at no time
has it read more files than there are roots for each of these names. -/
theorem run_terminates (names : List Text) :
    (∃ n, l.run (l.start names) = l.stateAfter names n ∧
      (∀ m, (l.stateAfter names m).queue = [] ↔ n ≤ m) ∧
      (l.cancelOn = none → n = (l.stateAfter names n).registered.length +
        2 * (l.stateAfter names n).reads.length)) ∧
    (∀ n, (l.stateAfter names n).registered.Nodup ∧
      (∀ name ∈ (l.stateAfter names n).registered, name ∈ names ∨ l.IncludedByFile name) ∧
      (l.stateAfter names n).reads.length ≤
        l.roots.length * (l.stateAfter names n).registered.length) ∧
    ((l.loadClosure names).2.filterMap LoadEvent.read?).length ≤
      l.roots.length * (l.run (l.start names)).registered.length := by
  obtain ⟨n, hrun, hover, hcount⟩ := l.run_jobs (l.start names)
  have hstates : ∀ n, (l.stateAfter names n).registered.Nodup ∧
      (∀ name ∈ (l.stateAfter names n).registered, name ∈ names ∨ l.IncludedByFile name) ∧
      (l.stateAfter names n).reads.length ≤
        l.roots.length * (l.stateAfter names n).registered.length := by
    intro n
    obtain ⟨b, hs, ht, hreg, hev⟩ := l.reaches_traced (l.runFor_moves n (l.start names))
    rw [stateAfter, State.reads, ← hreg, ← hev]
    exact ⟨hs.nodup, fun name hn => (hs.reachable_of_registered hn).known, ht.reads_le hs⟩
  refine ⟨⟨n, hrun, hover, fun hc => ?_⟩, hstates, ?_⟩
  · have hs : (l.start names).unwatched = l.start names := by
      rw [unwatched_start, l.unwatched_eq hc]
    have hdone := hcount hc hs
    rw [State.jobsDone_of_nil _ (l.run_queue _), jobsDone_start, hrun] at hdone
    rw [stateAfter]
    omega
  · rw [l.loadClosure_filterMap names fun e => LoadEvent.read?_of_not_ofLoad, hrun]
    exact (hstates n).2.2

/-- Two files that include each other take six jobs, and the names they include are their own. -/
theorem run_terminates_cycle :
    cycle.cancelOn = none ∧ cycle.run (cycle.start [['a']]) = cycle.stateAfter [['a']] 6 ∧
    (cycle.stateAfter [['a']] 5).queue ≠ [] ∧
    6 = (cycle.stateAfter [['a']] 6).registered.length +
      2 * (cycle.stateAfter [['a']] 6).reads.length ∧
    (['b'] ∈ [['a']] ∨ cycle.IncludedByFile ['b']) := by
  obtain ⟨⟨n, hrun, hover, hcount⟩, hstates, -⟩ := cycle.run_terminates [['a']]
  have hbefore : (cycle.stateAfter [['a']] 5).queue ≠ [] := by decide
  have hn : n = 6 := by
    have hle : n ≤ 6 := (hover 6).1 (by decide)
    have hnot : ¬ n ≤ 5 := fun h => hbefore ((hover 5).2 h)
    omega
  subst hn
  exact ⟨rfl, hrun, hbefore, hcount rfl, (hstates 6).2.1 ['b'] (by decide)⟩

end Loader

end SliceIdl
