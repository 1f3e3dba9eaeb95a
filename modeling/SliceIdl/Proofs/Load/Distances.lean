import Mathlib.Order.Lattice.Nat
import SliceIdl.Proofs.Load.Requests

/-!
# Distances from the initial names

A load takes three rounds of the queue, and two more for every root that it falls through before it
finds its file. So what a path of includes costs is the number of rounds that it takes to follow it,
and a name is registered in the round that is its distance from the initial names: the queue holds
the jobs of one round in front of those of the next one, as in a breadth-first search in which some
edges are longer than others.
-/

set_option autoImplicit false

namespace SliceIdl
open Closure

variable {Doc : Type}

namespace Loader

variable (l : Loader Doc) (names : List Text)

/-- What it costs to pass through a unit, by the place of its root among the roots. -/
def passing (loaded : LoadedUnit Doc) : Nat :=
  2 * l.roots.idxOf loaded.root + 3

/-- The total cost of a path of includes from an initial name to a name. -/
inductive PathCost : Text → Nat → Prop
  | initial {name : Text} (h : name ∈ names) : PathCost name 0
  | included {name included : Text} {cost : Nat} {loaded : LoadedUnit Doc} (h : PathCost name cost)
      (hl : l.load name none = .ok loaded) (hi : included ∈ l.language.includes loaded.document) :
      PathCost included (cost + l.passing loaded)

/-- The least cost of a path of includes from an initial name. -/
noncomputable def distance (name : Text) : Nat :=
  sInf {cost | l.PathCost names name cost}

def Passed (p : Probe) (before : List Text) : Prop :=
  l.roots = before ++ p.root :: p.otherRoots ∧
    ∀ root ∈ before, ∃ e, l.reader.read (probePath root p.name) = .unreadable e

/-- The round in which a job is done, by the rounds in which the names are registered. -/
inductive Due (time : Text → Nat) : Job → Nat → Prop
  | attempt (name : Text) (origin : Option Text) : Due time (.attempt name origin) (time name + 1)
  | hop {p : Probe} {before : List Text} (h : l.Passed p before) :
      Due time (.hop p) (time p.name + 2 * before.length + 2)
  | resume {p : Probe} {before : List Text} (h : l.Passed p before) :
      Due time (.resume p) (time p.name + 2 * before.length + 3)

def InRounds (time : Text → Nat) (now : Nat) (queue : List Job) : Prop :=
  ∃ front back, queue = front ++ back ∧ (∀ job ∈ front, l.Due time job now) ∧
    ∀ job ∈ back, l.Due time job (now + 1)

def Followed (time : Text → Nat) (registered : List Text) (name : Text) : Prop :=
  ∃ loaded, l.load name none = .ok loaded ∧ ∀ included ∈ l.language.includes loaded.document,
    included ∈ registered ∧ time included ≤ time name + l.passing loaded

end Loader

def Closure.Job.name? : Job → Option Text
  | .attempt name _ => some name
  | .hop p | .resume p => some p.name
  | .notice _ | .wake => none

namespace Loader

/-- The rounds in which the names of a state were registered, and what is still to be done. -/
structure Timed (l : Loader Doc) (names : List Text) (time : Text → Nat) (now : Nat)
    (s : State Doc) : Prop where
  inRounds : l.InRounds time now s.queue
  sorted : s.registered.Pairwise fun name name' => time name ≤ time name'
  past : ∀ name ∈ s.registered, time name ≤ now
  cost : ∀ name ∈ s.registered, l.PathCost names name (time name)
  initial : ∀ name ∈ names, name ∈ s.registered ∧ time name = 0
  queued : ∀ job ∈ s.queue, ∃ name ∈ s.registered, job.name? = some name
  followed : ∀ name ∈ s.registered,
    (∃ job ∈ s.queue, job.name? = some name) ∨ l.Followed time s.registered name
  watched : s.watched = []

variable {l : Loader Doc} {names : List Text} {time : Text → Nat} {now : Nat} {s : State Doc}

theorem Due.congr {time' : Text → Nat} {job : Job} {round : Nat} (h : l.Due time job round)
    (ht : ∀ name ∈ job.name?, time' name = time name) : l.Due time' job round := by
  cases h with
  | attempt name origin => exact ht name rfl ▸ .attempt name origin
  | @hop p _ h => exact ht p.name rfl ▸ .hop h
  | @resume p _ h => exact ht p.name rfl ▸ .resume h

theorem InRounds.next {job : Job} {queue : List Job} (h : l.InRounds time now (job :: queue)) :
    ∃ round, now ≤ round ∧ l.Due time job round ∧ ∀ time' more,
      (∀ other ∈ queue, ∀ name ∈ other.name?, time' name = time name) →
      (∀ next ∈ more, l.Due time' next (round + 1)) → l.InRounds time' round (queue ++ more) := by
  -- What the job queues is due in the round after its own, so it stands behind all others.
  obtain ⟨front, back, hq, hf, hb⟩ := h
  cases front with
  | cons first front =>
    rw [List.cons_append, List.cons_eq_cons] at hq
    obtain ⟨rfl, rfl⟩ := hq
    rw [List.forall_mem_cons] at hf
    refine ⟨now, Nat.le_refl _, hf.1, fun time' more ht hmore => ?_⟩
    rw [List.forall_mem_append] at ht
    have hback : ∀ j ∈ back ++ more, l.Due time' j (now + 1) :=
      List.forall_mem_append.2 ⟨fun j hj => (hb j hj).congr (ht.2 j hj), hmore⟩
    exact ⟨front, back ++ more, List.append_assoc ..,
      fun j hj => (hf.2 j hj).congr (ht.1 j hj), hback⟩
  | nil =>
    -- The round is over, and the jobs behind it are those of the next one.
    rw [List.nil_append] at hq
    rw [← hq, List.forall_mem_cons] at hb
    refine ⟨now + 1, Nat.le_succ _, hb.1, fun time' more ht hmore => ?_⟩
    exact ⟨queue, more, rfl, fun j hj => (hb.2 j hj).congr (ht j hj), hmore⟩

theorem Followed.mono {registered registered' : List Text} {time' : Text → Nat} {name : Text}
    (h : l.Followed time registered name) (hn : name ∈ registered)
    (hr : registered ⊆ registered') (ht : ∀ n ∈ registered, time' n = time n) :
    l.Followed time' registered' name := by
  obtain ⟨loaded, hl, hall⟩ := h
  refine ⟨loaded, hl, fun included hi => ?_⟩
  obtain ⟨hmem, hle⟩ := hall included hi
  exact ⟨hr hmem, by rwa [ht included hmem, ht name hn]⟩

def stamp (time : Text → Nat) (registered : List Text) (round : Nat) (name : Text) : Nat :=
  if name ∈ registered then time name else round

section
variable {registered : List Text} {round : Nat}

theorem stamp_of_mem {name : Text} (h : name ∈ registered) :
    stamp time registered round name = time name :=
  if_pos h

theorem stamp_newNames {includes : List Text} {name : Text}
    (h : name ∈ newNames registered includes) : stamp time registered round name = round :=
  if_neg (mem_newNames.1 h).2

theorem stamp_le (hp : ∀ name ∈ registered, time name ≤ round) (name : Text) :
    stamp time registered round name ≤ round := by
  rw [stamp]
  split
  · next h => exact hp name h
  · exact Nat.le_refl round

theorem pairwise_stamp (hs : registered.Pairwise fun name name' => time name ≤ time name')
    (hp : ∀ name ∈ registered, time name ≤ round) (includes : List Text) :
    (registered ++ newNames registered includes).Pairwise fun name name' =>
      stamp time registered round name ≤ stamp time registered round name' := by
  refine List.pairwise_append.2 ⟨?_, ?_, fun name _ name' hn' => ?_⟩
  · exact hs.imp_of_mem fun ha hb hle => by rwa [stamp_of_mem ha, stamp_of_mem hb]
  · exact List.pairwise_of_forall_mem_list fun a _ b hb => stamp_newNames hb ▸ stamp_le hp a
  · exact stamp_newNames hn' ▸ stamp_le hp name

theorem followed_newNames {name : Text} {loaded : LoadedUnit Doc}
    (hl : l.load name none = .ok loaded) (hn : name ∈ registered)
    (hp : ∀ name ∈ registered, time name ≤ round) (hround : round = time name + l.passing loaded) :
    l.Followed (stamp time registered round)
      (registered ++ newNames registered (l.language.includes loaded.document)) name := by
  refine ⟨loaded, hl, fun included hi => ⟨subset_append_newNames _ _ included hi, ?_⟩⟩
  rw [stamp_of_mem hn, ← hround]
  exact stamp_le hp included

end

theorem loadUnit_of_text {reader : Reader} {language : Language Doc} {name root t : Text}
    {origin : Option Text} {before : List Text}
    (hb : ∀ r ∈ before, ∃ e, reader.read (probePath r name) = .unreadable e)
    (ht : reader.read (probePath root name) = .text t) (after : List Text) :
    (loadUnit reader language name origin (before ++ root :: after)).2 =
      LoadedUnit.ofText language name root t := by
  rw [loadUnit_append hb]
  simp [loadUnit, ht]

theorem Passed.next {p : Probe} {before : List Text} (h : l.Passed p before) {e : ReadError}
    (hr : l.reader.read p.path = .unreadable e) {root : Text} {roots : List Text}
    (ho : p.otherRoots = root :: roots) :
    l.Passed ⟨p.name, p.includedFrom, root, roots⟩ (before ++ [p.root]) := by
  refine ⟨?_, List.forall_mem_append.2 ⟨h.2, List.forall_mem_singleton.2 ⟨e, hr⟩⟩⟩
  rw [h.1, ho, List.append_assoc, List.singleton_append]

theorem Passed.loads {p : Probe} {before : List Text} (h : l.Passed p before) {t : Text}
    (hr : l.reader.read p.path = .text t) {loaded : LoadedUnit Doc}
    (hu : LoadedUnit.ofText l.language p.name p.root t = .ok loaded) :
    l.load p.name none = .ok loaded ∧ l.passing loaded = 2 * before.length + 3 := by
  obtain ⟨hroots, hb⟩ := h
  constructor
  · rw [load, hroots, loadUnit_of_text hb hr, hu]
  · have hroot : loaded.root = p.root := by
      rw [LoadedUnit.ofText] at hu
      split at hu <;> cases hu
      rfl
    have hnot : p.root ∉ before := by
      intro hmem
      obtain ⟨e, he⟩ := hb p.root hmem
      rw [Probe.path, he] at hr
      cases hr
    rw [passing, hroot, hroots, List.idxOf_append_of_notMem hnot, List.idxOf_cons_self]
    rfl

theorem Timed.moves (h : l.Timed names time now s) {job j : Job} {queue : List Job}
    (hq : s.queue = job :: queue) (hname : j.name? = job.name?)
    (hdue : ∀ round, l.Due time job round → l.Due time j (round + 1)) {s' : State Doc}
    (hqueue : s'.queue = queue ++ [j]) (hr : s'.registered = s.registered)
    (hw : s'.watched = s.watched) : ∃ now, l.Timed names time now s' := by
  obtain ⟨round, hround, hjob, hmore⟩ := (hq ▸ h.inRounds).next
  have hjobs : ∀ other ∈ s'.queue, ∃ old ∈ s.queue, other.name? = old.name? := by
    rw [hqueue, hq]
    refine List.forall_mem_append.2 ⟨fun other hmem => ?_, List.forall_mem_singleton.2 ?_⟩
    · exact ⟨other, List.mem_cons_of_mem _ hmem, rfl⟩
    · exact ⟨job, List.mem_cons_self, hname⟩
  have hfollowed : ∀ name ∈ s.registered,
      (∃ other ∈ s'.queue, other.name? = some name) ∨ l.Followed time s.registered name := by
    intro name hn
    refine (h.followed name hn).imp_left ?_
    rintro ⟨old, hold, hname'⟩
    rw [hqueue]
    rcases List.mem_cons.1 (hq ▸ hold) with rfl | hold
    · exact ⟨j, List.mem_append_right _ (List.mem_singleton_self _), hname.trans hname'⟩
    · exact ⟨old, List.mem_append_left _ hold, hname'⟩
  exact ⟨round, {
    inRounds := by
      rw [hqueue]
      exact hmore time [j] (fun _ _ _ _ => rfl) (List.forall_mem_singleton.2 (hdue round hjob))
    sorted := hr ▸ h.sorted
    past := fun name hn => (h.past name (hr ▸ hn)).trans hround
    cost := fun name hn => h.cost name (hr ▸ hn)
    initial := fun name hn => hr ▸ h.initial name hn
    queued := by
      intro other hmem
      obtain ⟨old, hold, hsame⟩ := hjobs other hmem
      rw [hr, hsame]
      exact h.queued old hold
    followed := hr ▸ hfollowed
    watched := hw.trans h.watched }⟩

theorem Timed.tries (h : l.Timed names time now s) {job : Job} {queue : List Job}
    (hq : s.queue = job :: queue) {name : Text} (hname : job.name? = some name)
    {origin : Option Text} {roots : List Text}
    (hdue : ∀ round root rest, roots = root :: rest → l.Due time job round →
      l.Due time (.hop ⟨name, origin, root, rest⟩) (round + 1)) {s' : State Doc}
    (hf : (l.unwatched.tryRoots s' name origin roots).failure? = none)
    (hqueue : s'.queue = queue) (hr : s'.registered = s.registered) (hw : s'.watched = s.watched) :
    ∃ now, l.Timed names time now (l.unwatched.tryRoots s' name origin roots) := by
  cases roots with
  | nil =>
    rw [tryRoots_nil] at hf
    exact absurd hf (s'.failure?_settle_error_ne name _)
  | cons root rest =>
    rw [l.unwatched.tryRoots_cons s' rfl]
    exact h.moves (j := .hop ⟨name, origin, root, rest⟩) hq hname.symm
      (fun round => hdue round root rest rfl) (congrArg (· ++ _) hqueue) hr hw

theorem Timed.followed_newNames (h : l.Timed names time now s) {p : Probe} {queue : List Job}
    (hq : s.queue = .resume p :: queue) {loaded : LoadedUnit Doc}
    (hl : l.load p.name none = .ok loaded) (hp : p.name ∈ s.registered) {round : Nat}
    (hpast : ∀ name ∈ s.registered, time name ≤ round)
    (hround : round = time p.name + l.passing loaded) :
    ∀ name ∈ s.registered, (∃ job ∈ queue, job.name? = some name) ∨
      l.Followed (stamp time s.registered round)
        (s.registered ++ newNames s.registered (l.language.includes loaded.document)) name := by
  intro name hn
  rcases h.followed name hn with ⟨job, hj, hname⟩ | hfollowed
  · rcases List.mem_cons.1 (hq ▸ hj) with rfl | hj
    · obtain rfl := Option.some.inj hname
      exact .inr (Loader.followed_newNames hl hp hpast hround)
    · exact .inl ⟨job, hj, hname⟩
  · exact .inr (hfollowed.mono hn (List.subset_append_left ..) fun _ => stamp_of_mem)

theorem Timed.settles (h : l.Timed names time now s) {p : Probe} {queue : List Job}
    (hq : s.queue = .resume p :: queue) {t : Text} (hr : l.reader.read p.path = .text t)
    {loaded : LoadedUnit Doc} (hu : LoadedUnit.ofText l.language p.name p.root t = .ok loaded)
    {new : List Text} (hnew : new = newNames s.registered (l.language.includes loaded.document))
    {s' : State Doc} (hqueue : s'.queue = queue ++ new.map (.attempt · (some p.name)))
    (hregistered : s'.registered = s.registered ++ new) (hw : s'.watched = s.watched) :
    ∃ time now, l.Timed names time now s' := by
  subst hnew
  obtain ⟨round, hround, hjob, hmore⟩ := (hq ▸ h.inRounds).next
  obtain ⟨hl, hpassed⟩ : l.load p.name none = .ok loaded ∧
      round = time p.name + l.passing loaded := by
    cases hjob with
    | resume hp =>
      obtain ⟨hl, hpassing⟩ := hp.loads hr hu
      exact ⟨hl, by omega⟩
  obtain ⟨hp, hqueued⟩ : p.name ∈ s.registered ∧
      ∀ job ∈ queue, ∃ name ∈ s.registered, job.name? = some name := by
    have hall := h.queued
    rw [hq, List.forall_mem_cons] at hall
    obtain ⟨⟨name, hn, hname⟩, hrest⟩ := hall
    exact ⟨Option.some.inj hname ▸ hn, hrest⟩
  have hpast : ∀ name ∈ s.registered, time name ≤ round :=
    fun name hn => (h.past name hn).trans hround
  exact ⟨stamp time s.registered round, round, {
    inRounds := by
      rw [hqueue]
      refine hmore _ _ (fun job hj name hn => ?_) fun job hj => ?_
      · obtain ⟨name', hn', hname⟩ := hqueued job hj
        obtain rfl := Option.some.inj (hname.symm.trans hn)
        exact stamp_of_mem hn'
      · obtain ⟨name, hn, rfl⟩ := List.mem_map.1 hj
        have hdue : l.Due (stamp time s.registered round) (.attempt name (some p.name)) _ :=
          .attempt name _
        rwa [stamp_newNames hn] at hdue
    sorted := hregistered ▸ pairwise_stamp h.sorted hpast _
    past := fun name _ => stamp_le hpast name
    cost := by
      rw [hregistered]
      refine List.forall_mem_append.2 ⟨fun name hn => stamp_of_mem hn ▸ h.cost name hn, ?_⟩
      intro name hn
      rw [stamp_newNames hn, hpassed]
      exact .included (h.cost p.name hp) hl (mem_newNames.1 hn).1
    initial := by
      intro name hn
      obtain ⟨hmem, hzero⟩ := h.initial name hn
      exact ⟨hregistered ▸ List.mem_append_left _ hmem, (stamp_of_mem hmem).trans hzero⟩
    queued := by
      rw [hqueue, hregistered]
      refine List.forall_mem_append.2 ⟨fun job hj => ?_, fun job hj => ?_⟩
      · obtain ⟨name, hn, hname⟩ := hqueued job hj
        exact ⟨name, List.mem_append_left _ hn, hname⟩
      · obtain ⟨name, hn, rfl⟩ := List.mem_map.1 hj
        exact ⟨name, List.mem_append_right _ hn, rfl⟩
    followed := by
      rw [hqueue, hregistered]
      refine List.forall_mem_append.2 ⟨fun name hn => ?_, fun name hn => ?_⟩
      · exact (h.followed_newNames hq hl hp hpast hpassed name hn).imp_left
          fun ⟨job, hj, hname⟩ => ⟨job, List.mem_append_left _ hj, hname⟩
      · exact .inl ⟨_, List.mem_append_right _ (List.mem_map_of_mem hn), rfl⟩
    watched := hw.trans h.watched }⟩

theorem Timed.perform (h : l.Timed names time now s) {job : Job} {queue : List Job}
    (hq : s.queue = job :: queue)
    (hf : (l.unwatched.perform { s with queue } job).failure? = none) :
    ∃ time now, l.Timed names time now (l.unwatched.perform { s with queue } job) := by
  cases job with
  | attempt name origin =>
    refine ⟨time, h.tries hq rfl (fun round root rest ho hd => ?_) hf rfl rfl rfl⟩
    have hp : l.Passed ⟨name, origin, root, rest⟩ [] := ⟨ho, List.forall_mem_nil _⟩
    cases hd
    exact .hop hp
  | hop p =>
    refine ⟨time, h.moves hq (j := .resume p) rfl (fun round hd => ?_) rfl rfl rfl⟩
    cases hd with
    | hop hp => exact .resume hp
  | resume p =>
    cases hr : l.reader.read p.path with
    | unreadable e =>
      rw [Loader.perform, l.unwatched.resume_unreadable { s with queue } hr] at hf ⊢
      refine ⟨time, h.tries hq rfl (fun round root rest ho hd => ?_) hf rfl rfl rfl⟩
      cases hd with
      | @resume _ before hp =>
        have hnext : l.Due time (.hop _) _ := .hop (hp.next hr ho)
        rwa [List.length_append, List.length_singleton] at hnext
    | broken f =>
      rw [Loader.perform, l.unwatched.resume_broken { s with queue } hr] at hf
      exact absurd hf (State.failure?_settle_error_ne _ p.name _)
    | text t =>
      cases hu : LoadedUnit.ofText l.language p.name p.root t with
      | error f =>
        rw [Loader.perform, l.unwatched.resume_refused { s with queue } hr hu] at hf
        exact absurd hf (State.failure?_settle_error_ne _ p.name _)
      | ok loaded =>
        rw [Loader.perform, l.unwatched.resume_loaded { s with queue } hr hu] at hf ⊢
        rw [State.failure?_settle_ok, State.requestAll_failure?] at hf
        rw [State.requestAll_of_none hf, State.settle]
        simp only [State.note, h.watched, List.not_mem_nil, if_false]
        exact h.settles hq hr hu rfl rfl rfl h.watched.symm
  | notice name =>
    obtain ⟨_, -, hname⟩ := h.queued (.notice name) (hq ▸ List.mem_cons_self)
    cases hname
  | wake =>
    obtain ⟨_, -, hname⟩ := h.queued .wake (hq ▸ List.mem_cons_self)
    cases hname

theorem timed_start (names : List Text) :
    l.Timed names (fun _ => 0) 0 (l.unwatched.start names) where
  inRounds := by
    rw [start_queue]
    refine ⟨[], _, rfl, by simp, fun job hj => ?_⟩
    obtain ⟨name, -, rfl⟩ := List.mem_map.1 hj
    exact .attempt name none
  sorted := List.pairwise_of_forall fun _ _ => Nat.le_refl 0
  past := fun _ _ => Nat.le_refl 0
  cost := by
    rw [start_registered]
    exact fun name hn => .initial (mem_newNames.1 hn).1
  initial := by
    rw [start_registered]
    exact fun name hn => ⟨mem_newNames.2 ⟨hn, List.not_mem_nil⟩, rfl⟩
  queued := by
    rw [start_queue, start_registered]
    intro job hj
    obtain ⟨name, hn, rfl⟩ := List.mem_map.1 hj
    exact ⟨name, hn, rfl⟩
  followed := by
    rw [start_queue, start_registered]
    exact fun name hn => .inl ⟨_, List.mem_map_of_mem hn, rfl⟩
  watched := congrArg State.watched (l.unwatched.unwatched_start names).symm

theorem Timed.run (h : l.Timed names time now s) (hf : (l.unwatched.run s).failure? = none) :
    ∃ time now, l.Timed names time now (l.unwatched.run s) := by
  induction s using l.unwatched.run_induction generalizing time now with
  | nil s hq => exact ⟨time, now, (l.unwatched.run_of_nil hq).symm ▸ h⟩
  | cons s job queue hq ih =>
    rw [l.unwatched.run_of_cons hq] at hf ⊢
    obtain ⟨time', now', h'⟩ := h.perform hq (l.unwatched.failure?_of_run hf)
    exact ih h' hf

/-- When no job is left, every name that the initial names lead to is on register, in no later a
round than any path of includes costs. -/
theorem Timed.le_cost (h : l.Timed names time now s) (hq : s.queue = []) {name : Text} {cost : Nat}
    (hn : l.PathCost names name cost) : name ∈ s.registered ∧ time name ≤ cost := by
  induction hn with
  | initial hn =>
    obtain ⟨hmem, hzero⟩ := h.initial _ hn
    exact ⟨hmem, hzero.le⟩
  | @included name included cost loaded _ hl hi ih =>
    rcases h.followed name ih.1 with ⟨job, hj, -⟩ | ⟨loaded', hl', hall⟩
    · rw [hq] at hj
      cases hj
    · rw [hl, Except.ok.injEq] at hl'
      subst hl'
      obtain ⟨hmem, hle⟩ := hall included hi
      exact ⟨hmem, hle.trans (Nat.add_le_add_right ih.2 _)⟩

theorem Timed.isLeast (h : l.Timed names time now s) (hq : s.queue = []) {name : Text}
    (hn : name ∈ s.registered) : IsLeast {cost | l.PathCost names name cost} (time name) :=
  ⟨h.cost name hn, fun _ hcost => (h.le_cost hq hcost).2⟩

theorem Timed.distances (h : l.Timed names time now s) (hq : s.queue = []) :
    (∀ name ∈ s.registered, IsLeast {cost | l.PathCost names name cost} (l.distance names name)) ∧
      s.registered.Pairwise fun name name' => l.distance names name ≤ l.distance names name' := by
  have hdistance : ∀ name ∈ s.registered, l.distance names name = time name :=
    fun name hn => (h.isLeast hq hn).csInf_eq
  constructor
  · exact fun name hn => hdistance name hn ▸ h.isLeast hq hn
  · exact h.sorted.imp_of_mem fun ha hb hle => by rwa [hdistance _ ha, hdistance _ hb]

variable (l)

theorem run_distances {names : List Text} (hc : (l.run (l.start names)).cancelled = false)
    (hf : (l.run (l.start names)).failure? = none) :
    (∀ name ∈ (l.run (l.start names)).registered,
      IsLeast {cost | l.PathCost names name cost} (l.distance names name)) ∧
    (l.run (l.start names)).registered.Pairwise fun name name' =>
      l.distance names name ≤ l.distance names name' := by
  have hrun := l.unwatched_run hc
  rw [unwatched_start] at hrun
  have hfailure : (l.run (l.start names)).unwatched.failure? = none := hf
  rw [hrun] at hfailure
  obtain ⟨time, now, ht⟩ := (timed_start names).run hfailure
  rw [← hrun] at ht
  exact ht.distances (congrArg (List.filter Job.loads) (l.run_queue _))

/-- The names of a closure that can be loaded stand in the order of their distances from the initial
names, with the initial names in front. They were registered in this order, and those that were
registered for a unit stand together in the order of its includes. -/
theorem loadClosure_ordered {names : List Text} {units : List (Text × LoadedUnit Doc)}
    (h : (l.loadClosure names).1 = .loaded units) :
    (∀ name ∈ units.map Prod.fst,
      IsLeast {cost | l.PathCost names name cost} (l.distance names name)) ∧
    ((units.map Prod.fst).Pairwise fun name name' =>
      l.distance names name ≤ l.distance names name') ∧
    newNames [] names <+: units.map Prod.fst ∧
    (l.loadClosure names).2.filterMap LoadEvent.registered? = units.map Prod.fst ∧
    ∀ u ∈ units, ∃ earlier later,
      units.map Prod.fst =
        earlier ++ requestedFor (some u.1) (l.loadClosure names).2 ++ later ∧
      requestedFor (some u.1) (l.loadClosure names).2 =
        newNames earlier (l.language.includes u.2.document) := by
  obtain ⟨hc, hf, rfl⟩ := l.run_of_loaded h
  have hreaches := (l.run_ends names).1
  obtain ⟨hleast, hsorted⟩ := l.run_distances hc hf
  have hgrouped := grouped_of_reaches hreaches hc
  have hunfailed : ¬ (l.ledger (l.run (l.start names))).failed := by simp [failed_ledger_iff, hf]
  have hevents : (l.loadClosure names).2 = (l.run (l.start names)).events ++
      [.complete (l.run (l.start names)).units.length] := by
    simp [loadClosure, hc, hf]
  have hrequested (origin : Option Text) : requestedFor origin (l.loadClosure names).2 =
      requestedFor origin (l.run (l.start names)).events := by
    rw [hevents, requestedFor_append]
    exact List.append_nil _
  rw [l.units_names (l.run_ends names) hc hf]
  refine ⟨hleast, hsorted, hgrouped.initial, ?_, fun u hmem => ?_⟩
  · rw [hevents, List.filterMap_append, ← registered_of_reaches hreaches hc]
    exact List.append_nil _
  · rw [hrequested]
    exact hgrouped.settled hunfailed u.1 u.2 (State.mem_settled_of_mem_units hmem)

/-- A file below the second root and one below the first; the include of the second file is
registered before that of the first one. -/
def overtaking : Loader Text where
  reader := .ofFiles
    [("r/a.ice".toList, .text ['c', 'b']), ("q/b.ice".toList, .text ['d', 'a', 'd']),
      ("q/c.ice".toList, .text []), ("q/d.ice".toList, .text ['c'])]
  language := letters
  roots := [['q'], ['r']]

theorem loadClosure_ordered_overtaking :
    (overtaking.loadClosure [['a'], ['b'], ['a']]).1 =
      .loaded [(['a'], ⟨['r'], ['c', 'b'], ['c', 'b']⟩),
        (['b'], ⟨['q'], ['d', 'a', 'd'], ['d', 'a', 'd']⟩), (['d'], ⟨['q'], ['c'], ['c']⟩),
        (['c'], ⟨['q'], [], []⟩)] ∧
    ([['a'], ['b'], ['d'], ['c']].Pairwise fun name name' =>
      overtaking.distance [['a'], ['b'], ['a']] name ≤
        overtaking.distance [['a'], ['b'], ['a']] name') ∧
    newNames [] [['a'], ['b'], ['a']] <+: [['a'], ['b'], ['d'], ['c']] ∧
    ∃ earlier later, [['a'], ['b'], ['d'], ['c']] = earlier ++
        requestedFor (some ['b']) (overtaking.loadClosure [['a'], ['b'], ['a']]).2 ++ later ∧
      requestedFor (some ['b']) (overtaking.loadClosure [['a'], ['b'], ['a']]).2 =
        newNames earlier [['d'], ['a'], ['d']] := by
  have h : (overtaking.loadClosure [['a'], ['b'], ['a']]).1 =
      .loaded [(['a'], ⟨['r'], ['c', 'b'], ['c', 'b']⟩),
        (['b'], ⟨['q'], ['d', 'a', 'd'], ['d', 'a', 'd']⟩), (['d'], ⟨['q'], ['c'], ['c']⟩),
        (['c'], ⟨['q'], [], []⟩)] := by
    rw [loadClosure_runFor (n := 14) (by decide) (by decide)]
    rfl
  obtain ⟨-, hsorted, hinitial, -, hgroups⟩ := overtaking.loadClosure_ordered h
  exact ⟨h, hsorted, hinitial, hgroups (['b'], ⟨['q'], ['d', 'a', 'd'], ['d', 'a', 'd']⟩)
    (List.mem_cons_of_mem _ List.mem_cons_self)⟩

end Loader

end SliceIdl
