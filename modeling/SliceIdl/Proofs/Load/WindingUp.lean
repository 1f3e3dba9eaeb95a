import SliceIdl.Proofs.Load.Cancellation
import SliceIdl.Proofs.Load.FirstAttempts
import SliceIdl.Proofs.Load.Noninterference

/-!
# What a cancelled run still does

The jobs that are queued when a run is cancelled are those of different names, and each of them
reads one file at most. So a run that is winding up reads one more file at most for each name on
register, the next one that it would read for it anyway, and parses no text that it had not read by
then. While no name has been looked for below a later root, all that it still does is the first
attempts that are queued.
-/

set_option autoImplicit false

namespace SliceIdl
open Closure

variable {Doc : Type}

namespace LoadEvent

def registered? : LoadEvent → Option Text
  | registered name _ => some name
  | _ => none

theorem registered?_of_ofLoad {e : LoadEvent} (h : e.ofLoad = true) : e.registered? = none := by
  cases e with
  | read | unreadable | parsing => rfl
  | registered | notStarted | complete => cases h

end LoadEvent

namespace Loader

variable {l : Loader Doc} {names : List Text} {path : Text}

theorem filterMap_registered (new : List Text) (origin : Option Text) :
    (new.map (LoadEvent.registered · origin)).filterMap LoadEvent.registered? = new := by
  rw [List.filterMap_map]
  exact List.filterMap_some

theorem Traced.posts_registered {b b' : Ledger Doc} (h : l.Traced b)
    (hb : b.registered = b.events.filterMap LoadEvent.registered?) (hp : l.Posts b b') :
    b'.registered = b'.events.filterMap LoadEvent.registered? := by
  cases hp with
  | @leaves b a e es he =>
    have hnone := LoadEvent.registered?_of_ofLoad (h.ofLoad he)
    simpa [Ledger.opening, hnone] using hb
  | fails he hr => exact hb
  | succeeds he hr hf hn =>
    rw [List.filterMap_append, filterMap_registered]
    exact congrArg (· ++ _) hb
  | @succeedsLate b a loaded he hr hf =>
    rw [List.filterMap_append, List.filterMap_map]
    have hnone : ((l.language.includes loaded.document).filter (· ∉ b.registered)).filterMap
        (LoadEvent.registered? ∘ LoadEvent.notStarted) = [] :=
      List.filterMap_eq_nil_iff.2 fun _ _ => rfl
    rw [hnone, List.append_nil]
    exact hb

theorem registered_of_reaches {s : State Doc} (h : l.Reaches names s) (hc : s.cancelled = false) :
    s.registered = s.events.filterMap LoadEvent.registered? := by
  have hall := l.reaches_induction (motive := fun b => (l.Sound names b ∧ l.Traced b) ∧
    b.registered = b.events.filterMap LoadEvent.registered?)
    ⟨⟨l.sound_start names, l.traced_start names⟩, (filterMap_registered _ _).symm⟩
    (fun _ _ hb hp => ⟨⟨hb.1.1.posts hp, hb.1.2.posts hb.1.1 hp⟩,
      hb.1.2.posts_registered hb.2 hp⟩) h hc
  exact hall.2

theorem ownEntries_tagged {α : Type} (name : Text) (xs : List α) :
    ownEntries (xs.map (name, ·)) name = xs := by
  rw [ownEntries, List.filter_eq_self.2 (by simp), List.map_map]
  exact List.map_id xs

theorem ownEntries_tagged_other {α : Type} {name name' : Text} (h : name ≠ name') (xs : List α) :
    ownEntries (xs.map (name, ·)) name' = [] :=
  ownEntries_eq_nil fun x hx => by
    obtain ⟨_, -, rfl⟩ := List.mem_map.1 hx
    exact h

variable (l)

def ownReads (job : Job) : List (Text × Text × ReadOutcome) :=
  (l.account? job).toList.flatMap fun a => (l.readsOf job).map (a.name, ·)

theorem firstRead_reads_length (name : Text) (roots : List Text) :
    ((l.firstRead name roots).filterMap LoadEvent.read?).length ≤ 1 := by
  cases roots <;> simp [firstRead, LoadEvent.read?]

theorem readsOf_length (job : Job) : (l.readsOf job).length ≤ 1 := by
  rw [readsOf]
  cases job with
  | attempt name includedFrom => exact l.firstRead_reads_length ..
  | resume p =>
    rw [eventsOf]
    cases l.reader.read p.path with
    | unreadable e =>
      rw [List.filterMap_cons_none rfl]
      exact l.firstRead_reads_length ..
    | broken f => exact Nat.zero_le 1
    | text t => exact Nat.zero_le 1
  | hop | notice | wake => exact Nat.zero_le 1

theorem firstRead_prefix (name : Text) (includedFrom : Option Text) (roots : List Text) :
    l.firstRead name roots <+: (l.account name includedFrom roots).events := by
  cases roots with
  | nil => exact List.nil_prefix
  | cons root roots =>
    rw [account_cons]
    exact ⟨_, rfl⟩

theorem eventsOf_prefix {job : Job} {a : Account Doc} (h : l.account? job = some a) :
    l.eventsOf job <+: a.events := by
  cases job with
  | attempt name includedFrom =>
    cases h
    exact l.firstRead_prefix ..
  | hop p => exact List.nil_prefix
  | resume p =>
    cases h
    rw [eventsOf, accountAfter]
    cases l.reader.read p.path with
    | unreadable e => exact (List.prefix_cons_inj _).2 (l.firstRead_prefix ..)
    | broken | text => exact List.prefix_rfl
  | notice | wake => cases h

theorem eventsOf_of_account_none {job : Job} (h : l.account? job = none) :
    l.eventsOf job = [] := by
  cases job with
  | attempt | hop | resume => cases h
  | notice | wake => rfl

theorem ownReads_map_snd (jobs : List Job) : (jobs.flatMap l.ownReads).map Prod.snd =
    (jobs.flatMap l.eventsOf).filterMap LoadEvent.read? := by
  induction jobs with
  | nil => rfl
  | cons job jobs ih =>
    have hjob : (l.ownReads job).map Prod.snd = (l.eventsOf job).filterMap LoadEvent.read? := by
      rw [ownReads]
      cases h : l.account? job with
      | none => simp [l.eventsOf_of_account_none h]
      | some a => simp [readsOf, Function.comp_def]
    rw [List.flatMap_cons, List.map_append, hjob, ih, List.flatMap_cons, List.filterMap_append]

theorem ownReads_map_fst (jobs : List Job) : ((jobs.flatMap l.ownReads).map Prod.fst).Sublist
    ((jobs.filterMap l.account?).map Account.name) := by
  induction jobs with
  | nil => exact .slnil
  | cons job jobs ih =>
    rw [List.flatMap_cons, List.map_append, ownReads]
    cases h : l.account? job with
    | none =>
      rw [List.filterMap_cons_none h]
      exact ih
    | some a =>
      have hone : (((l.readsOf job).map (a.name, ·)).map Prod.fst).Sublist [a.name] := by
        have hlength := l.readsOf_length job
        rw [List.map_map]
        cases hreads : l.readsOf job with
        | nil => exact List.nil_sublist _
        | cons r rest =>
          rw [hreads] at hlength
          rw [List.eq_nil_of_length_eq_zero (Nat.le_zero.1 (Nat.le_of_succ_le_succ hlength))]
          exact List.Sublist.refl _
      rw [List.filterMap_cons_some h, List.map_cons]
      simpa using hone.append ih

theorem ownEntries_ownReads {jobs : List Job}
    (h : ((jobs.filterMap l.account?).map Account.name).Nodup) (name : Text) :
    ownEntries (jobs.flatMap l.ownReads) name = [] ∨
      ∃ job ∈ jobs, ∃ a, l.account? job = some a ∧ a.name = name ∧
        ownEntries (jobs.flatMap l.ownReads) name = l.readsOf job := by
  induction jobs with
  | nil => exact .inl rfl
  | cons job jobs ih =>
    rw [List.flatMap_cons, ownEntries_append]
    cases ha : l.account? job with
    | none =>
      rw [List.filterMap_cons_none ha] at h
      have hown : l.ownReads job = [] := by simp [ownReads, ha]
      rw [hown]
      rcases ih h with hnil | ⟨other, hmem, a, hother⟩
      · exact .inl hnil
      · exact .inr ⟨other, List.mem_cons_of_mem _ hmem, a, hother⟩
    | some a =>
      rw [List.filterMap_cons_some ha, List.map_cons, List.nodup_cons] at h
      have hown : l.ownReads job = (l.readsOf job).map (a.name, ·) := by simp [ownReads, ha]
      rw [hown]
      by_cases hn : a.name = name
      · subst hn
        have hrest : ownEntries (jobs.flatMap l.ownReads) a.name = [] := by
          apply ownEntries_eq_nil
          intro x hx hname
          exact h.1 (hname ▸ (l.ownReads_map_fst jobs).subset (List.mem_map_of_mem hx))
        rw [hrest, ownEntries_tagged, List.append_nil]
        exact .inr ⟨job, List.mem_cons_self, a, ha, rfl, rfl⟩
      · rw [ownEntries_tagged_other hn, List.nil_append]
        rcases ih h.2 with hnil | ⟨other, hmem, a, hother⟩
        · exact .inl hnil
        · exact .inr ⟨other, List.mem_cons_of_mem _ hmem, a, hother⟩

/-- Reads with which a run goes on after others: each name makes one of them at most, and with them
its reads are still the first ones of those that it would make alone. -/
def ReadsOn (names : List Text) (before after : List (Text × ReadOutcome)) : Prop :=
  ∃ old new : List (Text × Text × ReadOutcome),
    old.map Prod.snd = before ∧ new.map Prod.snd = after ∧ (∀ x ∈ old ++ new, x.1 ∈ names) ∧
    (new.map Prod.fst).Nodup ∧ ∀ n ∈ names, ownEntries (old ++ new) n <+: l.reader.probes n l.roots

variable {l}

theorem ReadsOn.mem_probes {before after : List (Text × ReadOutcome)}
    (h : l.ReadsOn names before after) {r : Text × ReadOutcome} (hr : r ∈ before ++ after) :
    ∃ n ∈ names, r ∈ l.reader.probes n l.roots := by
  obtain ⟨old, new, rfl, rfl, hnames, -, hown⟩ := h
  rw [← List.map_append] at hr
  obtain ⟨x, hx, rfl⟩ := List.mem_map.1 hr
  have hmem : x.2 ∈ ownEntries (old ++ new) x.1 :=
    List.mem_map_of_mem (List.mem_filter.2 ⟨hx, by simp⟩)
  exact ⟨x.1, hnames x hx, (hown x.1 (hnames x hx)).subset hmem⟩

variable {s : State Doc} {job : Job} {front rest : List Job} {lead further : List LoadEvent}
  {t : Text}

theorem LeadsTo.reads (h : LeadsTo job lead) : lead.filterMap LoadEvent.read? = [] := by
  obtain ⟨rfl, -⟩ | ⟨p, e, rfl, -⟩ := h <;> rfl

theorem LeadsTo.registered (h : LeadsTo job lead) :
    lead.filterMap LoadEvent.registered? = [] := by
  obtain ⟨rfl, -⟩ | ⟨p, e, rfl, -⟩ := h <;> rfl

theorem LeadsTo.readText (h : LeadsTo job lead) : lead.filterMap LoadEvent.readText? = [] := by
  obtain ⟨rfl, -⟩ | ⟨p, e, rfl, -⟩ := h <;> rfl

namespace CutShort

variable (h : l.CutShort names path s job front rest lead t further)
include h

theorem reaches : l.Reaches names s := by
  obtain ⟨n, rfl⟩ := h.after
  exact l.runFor_moves n _

theorem mem_queue {other : Job} (hj : other ∈ job :: front) : other ∈ s.queue := by
  rw [h.queue, ← List.cons_append]
  exact List.mem_append_left _ hj

theorem further_reads : further.filterMap LoadEvent.read? =
    (front.flatMap l.eventsOf).filterMap LoadEvent.read? := by
  rw [← h.ofLoad, filterMap_ofLoad _ fun e => LoadEvent.read?_of_not_ofLoad]

theorem jobs_reads : ((job :: front).flatMap l.eventsOf).filterMap LoadEvent.read? =
    (path, .text t) :: further.filterMap LoadEvent.read? := by
  rw [List.flatMap_cons, h.reads, h.further_reads, List.filterMap_append, List.filterMap_append,
    h.leads.reads]
  rfl

theorem accounts_nodup : (((job :: front).filterMap l.account?).map Account.name).Nodup := by
  have hs := l.sound_of_reaches h.reaches h.uncancelled
  have hall : ((s.queue.filterMap l.account?).map Account.name).Nodup := by
    have hnodup : (l.ledger s).registered.Nodup := hs.nodup
    rw [← Multiset.coe_nodup, ← hs.named] at hnodup
    exact Multiset.coe_nodup.1 (Multiset.nodup_of_le (Multiset.le_add_right ..) hnodup)
  rw [h.queue, ← List.cons_append, List.filterMap_append, List.map_append] at hall
  exact hall.of_append_left

theorem account_pending {other : Job} (hj : other ∈ job :: front) {a : Account Doc}
    (ha : l.account? other = some a) : a ∈ (l.ledger s).pending :=
  Multiset.mem_coe.2 (List.mem_filterMap.2 ⟨other, h.mem_queue hj, ha⟩)

theorem account_registered {other : Job} (hj : other ∈ job :: front) {a : Account Doc}
    (ha : l.account? other = some a) : a.name ∈ s.registered := by
  have hs := l.sound_of_reaches h.reaches h.uncancelled
  have hmem : a.name ∈ ((l.ledger s).registered : Multiset Text) := by
    rw [← hs.named, Multiset.mem_add]
    exact .inl (Multiset.mem_map_of_mem _ (h.account_pending hj ha))
  exact Multiset.mem_coe.1 hmem

theorem readsOn :
    l.ReadsOn s.registered s.reads ((path, .text t) :: further.filterMap LoadEvent.read?) := by
  obtain ⟨hs, tagged, hmap, hreg, hpending, hsettled⟩ :=
    l.traced_of_reaches h.reaches h.uncancelled
  have hnew : ∀ x ∈ (job :: front).flatMap l.ownReads, x.1 ∈ s.registered := by
    intro x hx
    have hname := (l.ownReads_map_fst _).subset (List.mem_map_of_mem (f := Prod.fst) hx)
    obtain ⟨a, ha, hn⟩ := List.mem_map.1 hname
    obtain ⟨other, hj, ha⟩ := List.mem_filterMap.1 ha
    exact hn ▸ h.account_registered hj ha
  refine ⟨mapEntries LoadEvent.read? tagged, (job :: front).flatMap l.ownReads, ?_, ?_, ?_, ?_, ?_⟩
  · rw [mapEntries_map_snd, hmap, filterMap_ofLoad _ fun e => LoadEvent.read?_of_not_ofLoad]
    rfl
  · rw [ownReads_map_snd, h.jobs_reads]
  · intro x hx
    exact (List.mem_append.1 hx).elim (mapEntries_fst_mem hreg x) (hnew x)
  · exact (l.ownReads_map_fst _).nodup h.accounts_nodup
  · intro n hn
    have hreads : (loadUnit l.reader l.language n none l.roots).1.filterMap LoadEvent.read? =
        l.reader.probes n l.roots := loadUnit_reads
    rw [ownEntries_append, ownEntries_mapEntries, ← hreads]
    rcases l.ownEntries_ownReads h.accounts_nodup n with hnil | ⟨other, hj, a, ha, rfl, hown⟩
    · rw [hnil, List.append_nil]
      exact (hs.own_prefix hpending hsettled hn).filterMap _
    · rw [hown, readsOf, ← List.filterMap_append]
      apply List.IsPrefix.filterMap
      rw [← trace, ← hpending a (h.account_pending hj ha)]
      exact (List.prefix_append_right_inj _).2 (l.eventsOf_prefix ha)

end CutShort

theorem ReadsOn.reader {before after : List (Text × ReadOutcome)}
    (h : l.ReadsOn names before after) {r : Text × ReadOutcome} (hr : r ∈ before) :
    r.2 = l.reader.read r.1 := by
  obtain ⟨n, -, hprobe⟩ := h.mem_probes (List.mem_append_left after hr)
  obtain ⟨-, -, -, hread⟩ := SliceIdl.Loader.mem_probes hprobe
  exact hread

theorem mem_eventsOf_parsing {name p : Text} (h : .parsing name p ∈ l.eventsOf job) :
    ∃ q t, job = .resume q ∧ q.name = name ∧ q.path = p ∧ l.reader.read p = .text t := by
  have hfirst (name' : Text) (roots : List Text) :
      .parsing name p ∉ l.firstRead name' roots := by
    cases roots <;> simp [firstRead]
  cases job with
  | attempt name' includedFrom => exact absurd h (hfirst _ _)
  | resume q =>
    rw [eventsOf] at h
    cases hr : l.reader.read q.path with
    | unreadable e =>
      rw [hr] at h
      exact absurd ((List.mem_cons.1 h).resolve_left (by simp)) (hfirst _ _)
    | broken f =>
      rw [hr] at h
      cases h
    | text t =>
      rw [hr] at h
      cases List.mem_singleton.1 h
      exact ⟨q, t, rfl, rfl, rfl, hr⟩
  | hop | notice | wake => cases h

theorem accountAfter_name (q : Probe) : (l.accountAfter q).name = q.name := by
  rw [accountAfter]
  split <;> rfl

theorem stateAfter_recorded (names : List Text) (n : Nat) : (l.stateAfter names n).Recorded :=
  l.stateAfter_induction (l.recorded_start names)
    (fun _ _ _ h hq => (l.recorded_perform h hq).2) n

theorem CutShort.parsed (h : l.CutShort names path s job front rest lead t further)
    {name p : Text} (hp : .parsing name p ∈ further) :
    name ∈ s.registered ∧ p ∈ s.events.filterMap LoadEvent.readText? := by
  have hload : .parsing name p ∈ front.flatMap l.eventsOf :=
    h.ofLoad ▸ List.mem_filter.2 ⟨hp, rfl⟩
  obtain ⟨other, hj, hevent⟩ := List.mem_flatMap.1 hload
  obtain ⟨q, t', rfl, rfl, rfl, hr⟩ := mem_eventsOf_parsing hevent
  have hj := List.mem_cons_of_mem job hj
  have hname := h.account_registered hj rfl
  rw [accountAfter_name] at hname
  refine ⟨hname, ?_⟩
  obtain ⟨n, hn⟩ := h.after
  have hpath : q.path ∈ readPaths s.events :=
    hn ▸ stateAfter_recorded names n (.resume q) (hn ▸ h.mem_queue hj) q.path rfl
  obtain ⟨⟨_, outcome⟩, hread, rfl⟩ := List.mem_map.1 hpath
  obtain rfl : outcome = .text t' := (h.readsOn.reader hread).trans hr
  obtain ⟨e, he, hre⟩ := List.mem_filterMap.1 hread
  refine List.mem_filterMap.2 ⟨e, he, ?_⟩
  cases e with
  | read path' outcome =>
    cases hre
    rfl
  | registered | notStarted | unreadable | parsing | complete => cases hre

theorem staysFirst_of_ne {job : Job} (h : ∀ p, job ≠ .resume p) : l.StaysFirst job :=
  fun p _ hj => absurd hj (h p)

theorem eventsOf_isRead {job : Job} (h : ∀ p, job ≠ .resume p) {e : LoadEvent}
    (he : e ∈ l.eventsOf job) : e.read?.isSome := by
  cases job with
  | attempt name includedFrom =>
    obtain ⟨root, -, rfl⟩ := List.mem_map.1 he
    rfl
  | resume p => exact absurd rfl (h p)
  | hop | notice | wake => cases he

theorem firstProbes_attempts {jobs : List Job} (h : ∀ job ∈ jobs, l.StaysFirst job) :
    (jobs.flatMap l.eventsOf).filterMap LoadEvent.read? =
      l.firstProbes (jobs.filterMap Job.attempt?) := by
  induction jobs with
  | nil => exact firstProbes_nil.symm
  | cons job jobs ih =>
    have hjob : (l.eventsOf job).filterMap LoadEvent.read? = l.firstProbes job.attempt?.toList :=
      (h job List.mem_cons_self).readsOf
    have hcons : (job :: jobs).filterMap Job.attempt? =
        job.attempt?.toList ++ jobs.filterMap Job.attempt? := by
      rw [List.filterMap_cons]
      cases job.attempt? <;> rfl
    rw [List.flatMap_cons, List.filterMap_append, hjob, hcons, firstProbes_append,
      ih fun other hj => h other (List.mem_cons_of_mem _ hj)]

theorem FirstRootOnly.read {es : List LoadEvent} (h : l.FirstRootOnly es) (path : Text)
    (outcome : ReadOutcome) : l.FirstRootOnly (es ++ [.read path outcome]) :=
  h.imp_right fun hnone name root e he =>
    (List.mem_append.1 he).elim (hnone name root e) (by simp)

namespace CutShort

variable (h : l.CutShort names path s job front rest lead t further)
include h

theorem roots_ne_nil : l.roots ≠ [] := by
  intro hroots
  obtain ⟨n, -, hprobe⟩ := h.readsOn.mem_probes (r := (path, ReadOutcome.text t))
    (List.mem_append_right _ List.mem_cons_self)
  rw [hroots] at hprobe
  cases hprobe

theorem staged (hfirst : l.FirstRootOnly (s.events ++ lead)) :
    l.Staged s ∧ l.StaysFirst job := by
  obtain ⟨n, hn⟩ := h.after
  have hstaged : l.Staged s := by
    have hc := h.uncancelled
    have hes : l.FirstRootOnly s.events := hfirst.mono (List.subset_append_left ..)
    rw [hn] at hc hes ⊢
    exact stateAfter_staged h.roots_ne_nil names n hc hes
  refine ⟨hstaged, hstaged.staysFirst h.queue ?_⟩
  rw [h.reads, ← List.append_assoc]
  exact hfirst.read ..

theorem lead_eq_nil (hfirst : l.FirstRootOnly (s.events ++ lead)) :
    lead = [] ∧ ∃ name includedFrom, job = .attempt name includedFrom := by
  rcases h.leads with hattempt | ⟨p, e, rfl, rfl⟩
  · exact hattempt
  · have hreads := (h.staged hfirst).2.readsOf
    rw [Loader.readsOf, h.reads] at hreads
    have hnil : l.firstProbes (Job.resume p).attempt?.toList = [] := firstProbes_nil
    rw [hnil] at hreads
    cases hreads

theorem only_first_attempts (hfirst : l.FirstRootOnly (s.events ++ lead)) :
    (∀ p, .resume p ∉ front) ∧ rest.filterMap Job.attempt? = [] := by
  obtain ⟨-, name, includedFrom, rfl⟩ := h.lead_eq_nil hfirst
  have hstages := (h.staged hfirst).1.stages
  rw [h.queue, List.pairwise_cons, List.pairwise_append] at hstages
  obtain ⟨hbehind, -, hrest, -⟩ := hstages
  constructor
  · intro p hp
    have hstage := hbehind _ (List.mem_append_left rest hp)
    simp [Job.stage] at hstage
  · rcases h.behind with rfl | ⟨others, rfl⟩
    · rfl
    · rw [List.filterMap_cons_none rfl, List.filterMap_eq_nil_iff]
      intro other hother
      have hwake := (List.pairwise_cons.1 hrest).1 other hother
      have hattempt := hbehind other (List.mem_append_right front (List.mem_cons_of_mem _ hother))
      cases other with
      | attempt | notice => simp [Job.stage] at hwake
      | hop | resume | wake => rfl

/-- All that is left after the read is the first reads that are due, in order of registration. -/
theorem first_reads (hfirst : l.FirstRootOnly (s.events ++ lead)) :
    (∀ e ∈ further, e.read?.isSome) ∧
    s.reads ++ (path, .text t) :: further.filterMap LoadEvent.read? =
      l.firstProbes s.registered := by
  obtain ⟨hstaged, hstays⟩ := h.staged hfirst
  obtain ⟨hresume, hrest⟩ := h.only_first_attempts hfirst
  have hnot : ∀ other ∈ front, ∀ p, other ≠ .resume p := by
    rintro other hj p rfl
    exact hresume p hj
  constructor
  · intro e he
    rw [h.only hresume] at he
    obtain ⟨other, hj, he⟩ := List.mem_flatMap.1 he
    exact eventsOf_isRead (hnot other hj) he
  · have hall : ∀ other ∈ job :: front, l.StaysFirst other := by
      intro other hj
      rcases List.mem_cons.1 hj with rfl | hj
      · exact hstays
      · exact staysFirst_of_ne (hnot other hj)
    rw [hstaged.reads, ← h.jobs_reads, firstProbes_attempts hall, State.attempts, h.queue,
      ← List.cons_append, List.filterMap_append, hrest, List.append_nil]

end CutShort

theorem append_cons_inj_of_first {α β : Type} {f : α → Option β} {x : β} {xs xs' ys ys' : List α}
    {a a' : α} (h : xs ++ a :: ys = xs' ++ a' :: ys') (ha : f a = some x) (ha' : f a' = some x)
    (hx : x ∉ xs.filterMap f) (hx' : x ∉ xs'.filterMap f) : xs = xs' ∧ a = a' ∧ ys = ys' := by
  have hnil {way ys ys' : List α} {a a' : α} (h : a :: ys = way ++ a' :: ys') (ha : f a = some x)
      (hx : x ∉ way.filterMap f) : way = [] := by
    cases way with
    | nil => rfl
    | cons b way =>
      obtain ⟨rfl, -⟩ := List.cons_eq_cons.1 h
      exact absurd (List.mem_filterMap.2 ⟨a, List.mem_cons_self, ha⟩) hx
  rcases List.append_eq_append_iff.1 h with ⟨way, rfl, hrest⟩ | ⟨way, rfl, hrest⟩
  · rw [List.filterMap_append, List.mem_append, not_or] at hx'
    obtain rfl := hnil hrest ha hx'.2
    obtain ⟨rfl, rfl⟩ := List.cons_eq_cons.1 hrest
    exact ⟨(List.append_nil _).symm, rfl, rfl⟩
  · rw [List.filterMap_append, List.mem_append, not_or] at hx
    obtain rfl := hnil hrest ha' hx.2
    obtain ⟨rfl, rfl⟩ := List.cons_eq_cons.1 hrest
    exact ⟨List.append_nil _, rfl, rfl⟩

variable (l)

/-- How a run goes on that is cancelled when it reads the text `t`. Each name on register makes one
more read at most, which is the next one that it would make alone, and only what had been read by
then is still parsed. If no name had been looked for below a later root, all that follows is the
first reads that were due, so that the reads of the run are the first ones of all names that were on
register, in this order. -/
structure WindsUp (path : Text) (before : List LoadEvent) (t : Text) (further : List LoadEvent) :
    Prop where
  reads : l.ReadsOn (before.filterMap LoadEvent.registered?) (before.filterMap LoadEvent.read?)
    ((path, .text t) :: further.filterMap LoadEvent.read?)
  parsed : ∀ name p, .parsing name p ∈ further →
    name ∈ before.filterMap LoadEvent.registered? ∧ p ∈ before.filterMap LoadEvent.readText?
  first : l.FirstRootOnly before → (∀ e ∈ further, e.read?.isSome) ∧
    before.filterMap LoadEvent.read? ++ (path, .text t) :: further.filterMap LoadEvent.read? =
      l.firstProbes (before.filterMap LoadEvent.registered?)

variable {l}

theorem CutShort.windsUp (h : l.CutShort names path s job front rest lead t further) :
    l.WindsUp path (s.events ++ lead) t further := by
  have hregistered : (s.events ++ lead).filterMap LoadEvent.registered? = s.registered := by
    rw [List.filterMap_append, h.leads.registered, List.append_nil,
      registered_of_reaches h.reaches h.uncancelled]
  have hreads : (s.events ++ lead).filterMap LoadEvent.read? = s.reads := by
    rw [List.filterMap_append, h.leads.reads, List.append_nil, State.reads]
  have htexts : (s.events ++ lead).filterMap LoadEvent.readText? =
      s.events.filterMap LoadEvent.readText? := by
    rw [List.filterMap_append, h.leads.readText, List.append_nil]
  constructor
  · rw [hregistered, hreads]
    exact h.readsOn
  · rw [hregistered, htexts]
    exact fun name p => h.parsed
  · rw [hregistered, hreads]
    exact h.first_reads

variable (l)

theorem run_events_prefix_loadClosure (names : List Text) :
    (l.run (l.start names)).events <+: (l.loadClosure names).2 := by
  rw [loadClosure]
  split
  · exact List.prefix_rfl
  · split
    · exact List.prefix_rfl
    · exact List.prefix_append ..

theorem loadClosure_of_cancelled (h : (l.run (l.start names)).cancelled = true) :
    l.loadClosure names = (.cancelled, (l.run (l.start names)).events) := by
  rw [loadClosure, if_pos h]

/-- A run that never reads the path with success is the same whether or not this would cancel it.
A run that does so is cancelled, and its events are the first ones of those that are left if nothing
can cancel it: all up to the first such read, and what the run leaves while it winds up. -/
theorem loadClosure_cancelledBy (names : List Text) (path : Text) :
    (path ∉ (l.unwatched.loadClosure names).2.filterMap LoadEvent.readText? →
      (l.cancelledBy path).loadClosure names = l.unwatched.loadClosure names) ∧
    ∀ before t after,
      (l.unwatched.loadClosure names).2 = before ++ .read path (.text t) :: after →
      path ∉ before.filterMap LoadEvent.readText? →
      ∃ further, further <+: after ∧
        (l.cancelledBy path).loadClosure names =
          (.cancelled, before ++ .read path (.text t) :: further) ∧
        l.WindsUp path before t further := by
  let c := l.cancelledBy path
  have hstart : (c.run (c.start names)).events <+: (l.unwatched.loadClosure names).2 := by
    have hrun := c.run_events_unwatched (c.start names)
    rw [unwatched_start] at hrun
    exact hrun.trans (l.unwatched.run_events_prefix_loadClosure names)
  have hread : (c.run (c.start names)).cancelled = true ↔
      path ∈ (c.run (c.start names)).events.filterMap LoadEvent.readText? := by
    obtain ⟨n, hn⟩ := c.exists_stateAfter names
    rw [hn n le_rfl]
    exact stateAfter_cancelled_iff rfl names n
  have hsame (h : ¬ (c.run (c.start names)).cancelled = true) :
      c.loadClosure names = l.unwatched.loadClosure names := by
    apply c.loadClosure_unwatched
    rwa [Ne, c.loadClosure_eq_cancelled_iff]
  constructor
  · intro hpath
    exact hsame fun hcancelled => hpath ((hstart.filterMap _).subset (hread.1 hcancelled))
  · intro before t after hevents hbefore
    have hcancelled : (c.run (c.start names)).cancelled = true := by
      by_contra hnot
      apply hnot
      rw [hread, ← c.loadClosure_readText, hsame hnot, hevents]
      simp [LoadEvent.readText?]
    obtain ⟨s, job, front, rest, lead, t', further, hcut⟩ := exists_cutShort rfl hcancelled
    have hfirst : path ∉ (s.events ++ lead).filterMap LoadEvent.readText? := by
      obtain ⟨n, hn⟩ := hcut.after
      have huncancelled := hcut.uncancelled
      rw [List.filterMap_append, hcut.leads.readText, List.append_nil]
      rw [hn] at huncancelled ⊢
      rw [← stateAfter_cancelled_iff (l := c) rfl, huncancelled]
      exact Bool.false_ne_true
    obtain ⟨more, hmore⟩ := hstart
    rw [hcut.events, hevents, List.append_assoc, List.cons_append] at hmore
    obtain ⟨rfl, heq, rfl⟩ := append_cons_inj_of_first (f := LoadEvent.readText?) hmore rfl rfl
      hfirst hbefore
    cases heq
    have hwindsUp := hcut.windsUp
    refine ⟨further, List.prefix_append .., ?_, ⟨hwindsUp.reads, hwindsUp.parsed, hwindsUp.first⟩⟩
    rw [← hcut.events]
    exact c.loadClosure_of_cancelled hcancelled

/-- One of two files that include each other cancels the run before the other one is read. -/
theorem loadClosure_cancelledBy_cycle :
    "r/z.ice".toList ∉
      (cycle.unwatched.loadClosure [['a'], ['b']]).2.filterMap LoadEvent.readText? ∧
    (cycle.cancelledBy "r/z.ice".toList).loadClosure [['a'], ['b']] =
      cycle.unwatched.loadClosure [['a'], ['b']] ∧
    cycle.FirstRootOnly [.registered ['a'] none, .registered ['b'] none] ∧
    ∃ further, (cycle.cancelledBy "r/a.ice".toList).loadClosure [['a'], ['b']] =
        (.cancelled, [.registered ['a'] none, .registered ['b'] none] ++
          .read "r/a.ice".toList (.text ['a', 'b']) :: further) ∧
      ("r/a.ice".toList, .text ['a', 'b']) :: further.filterMap LoadEvent.read? =
        cycle.firstProbes [['a'], ['b']] := by
  have hrun : cycle.unwatched.run (cycle.unwatched.start [['a'], ['b']]) =
      cycle.unwatched.runFor 6 (cycle.unwatched.start [['a'], ['b']]) :=
    cycle.unwatched.run_eq_runFor (by decide)
  have hfree : (cycle.unwatched.loadClosure [['a'], ['b']]).2 =
      [.registered ['a'] none, .registered ['b'] none] ++
        .read "r/a.ice".toList (.text ['a', 'b']) :: [.read "r/b.ice".toList (.text ['a']),
          .parsing ['a'] "r/a.ice".toList, .parsing ['b'] "r/b.ice".toList, .complete 2] := by
    rw [loadClosure, hrun]
    rfl
  have hnever : "r/z.ice".toList ∉
      (cycle.unwatched.loadClosure [['a'], ['b']]).2.filterMap LoadEvent.readText? := by
    rw [hfree]
    decide
  have hfirst : cycle.FirstRootOnly [.registered ['a'] none, .registered ['b'] none] :=
    .inl (by decide)
  have hsame := (cycle.loadClosure_cancelledBy [['a'], ['b']] "r/z.ice".toList).1 hnever
  obtain ⟨further, -, hcut, hwindsUp⟩ :=
    (cycle.loadClosure_cancelledBy [['a'], ['b']] "r/a.ice".toList).2 _ _ _ hfree (by decide)
  exact ⟨hnever, hsame, hfirst, further, hcut, (hwindsUp.first hfirst).2⟩

/-- Two names that both have their texts below the second root. -/
def sideBySide : Loader Text where
  reader := .ofFiles [("r/a.ice".toList, .text []), ("r/b.ice".toList, .text [])]
  language := letters
  roots := [['q'], ['r']]

/-- While one text is read below the second root, the other one is looked for there. -/
theorem not_always_first_reads :
    ¬ ∀ (l : Loader Text) (names : List Text) (path : Text) (before : List LoadEvent) (t : Text)
        (after further : List LoadEvent),
      (l.unwatched.loadClosure names).2 = before ++ .read path (.text t) :: after →
      path ∉ before.filterMap LoadEvent.readText? →
      (l.cancelledBy path).loadClosure names =
        (.cancelled, before ++ .read path (.text t) :: further) →
      ∀ r ∈ further.filterMap LoadEvent.read?, ∃ root ∈ l.roots.head?,
        ∃ name ∈ before.filterMap LoadEvent.registered?, r.1 = probePath root name := by
  intro h
  have hrun : sideBySide.unwatched.run (sideBySide.unwatched.start [['a'], ['b']]) =
      sideBySide.unwatched.runFor 10 (sideBySide.unwatched.start [['a'], ['b']]) :=
    sideBySide.unwatched.run_eq_runFor (by decide)
  let c := sideBySide.cancelledBy "r/a.ice".toList
  have hcancelled : c.run (c.start [['a'], ['b']]) = c.runFor 8 (c.start [['a'], ['b']]) :=
    c.run_eq_runFor (by decide)
  let before : List LoadEvent :=
    [.registered ['a'] none, .registered ['b'] none,
      .read "q/a.ice".toList (.unreadable .notFound),
      .read "q/b.ice".toList (.unreadable .notFound),
      .unreadable ['a'] ['q'] .notFound]
  let further : List LoadEvent :=
    [.unreadable ['b'] ['q'] .notFound, .read "r/b.ice".toList (.text [])]
  have hfree : (sideBySide.unwatched.loadClosure [['a'], ['b']]).2 =
      before ++ .read "r/a.ice".toList (.text []) :: (further ++
        [.parsing ['a'] "r/a.ice".toList, .parsing ['b'] "r/b.ice".toList, .complete 2]) := by
    rw [loadClosure, hrun]
    rfl
  have hcut : c.loadClosure [['a'], ['b']] =
      (.cancelled, before ++ .read "r/a.ice".toList (.text []) :: further) := by
    rw [loadClosure, hcancelled]
    rfl
  have hread := h sideBySide _ _ before [] _ further hfree (by decide) hcut
    ("r/b.ice".toList, .text []) (by decide)
  revert hread
  decide

end Loader

end SliceIdl
