import SliceIdl.Proofs.Load.Reachability

/-!
# Loading one unit after the other

A loop with a work list takes the names in order, loads each of them alone and lists what it
includes and nobody has listed before; it stops at the first failure. With a single root this gives
the answer of a run: every load takes the same steps, so in first-in first-out order the names in
flight stay in the order of the work list, and the unit that settles next is its first one. After
the first failure a run goes on with loads that the loop never begins, but its answer is settled.
-/

set_option autoImplicit false

namespace SliceIdl
open Closure

variable {Doc : Type}

/-- How far a loop has come that loads one name after the other. -/
structure Worklist (Doc : Type) where
  listed : List Text
  pending : List (Text × Option Text)
  loaded : List (Text × LoadedUnit Doc)

def Worklist.list (w : Worklist Doc) (origin : Option Text) (names : List Text) : Worklist Doc :=
  { w with
    listed := w.listed ++ newNames w.listed names
    pending := w.pending ++ (newNames w.listed names).map fun name => (name, origin) }

def Worklist.start (names : List Text) : Worklist Doc :=
  Worklist.list ⟨[], [], []⟩ none names

def Worklist.advance (w : Worklist Doc) (name : Text) (rest : List (Text × Option Text))
    (loaded : LoadedUnit Doc) (includes : List Text) : Worklist Doc :=
  { w with pending := rest, loaded := w.loaded ++ [(name, loaded)] }.list (some name) includes

namespace Loader

variable (l : Loader Doc)

noncomputable def unlisted (listed : List Text) : Nat :=
  l.includable.countP fun name => name ∉ listed

theorem unlisted_newNames (listed names : List Text) (h : ∀ name ∈ names, name ∈ l.includable) :
    l.unlisted (listed ++ newNames listed names) + (newNames listed names).length ≤
      l.unlisted listed := by
  induction names generalizing listed with
  | nil => simp [newNames]
  | cons name names ih =>
    have hall : ∀ n ∈ names, n ∈ l.includable := fun n hn => h n (List.mem_cons_of_mem _ hn)
    rw [newNames]
    split
    · exact ih listed hall
    · next hn =>
      have hrest := ih (listed ++ [name]) hall
      have hone : l.unlisted (listed ++ [name]) + 1 ≤ l.unlisted listed :=
        l.unregistered_register { State.empty with registered := listed }
          (h name List.mem_cons_self) hn [] []
      rw [List.append_cons, List.length_cons]
      omega

theorem includes_includable {name : Text} {origin : Option Text} {loaded : LoadedUnit Doc}
    (h : l.load name origin = .ok loaded) :
    ∀ included ∈ l.language.includes loaded.document, included ∈ l.includable := by
  obtain ⟨-, hr, hp⟩ := loadUnit_first h
  exact fun included hi => l.mem_includable hr hp hi

theorem advance_lt {w : Worklist Doc} {name : Text} {origin : Option Text}
    {rest : List (Text × Option Text)} {loaded : LoadedUnit Doc}
    (hw : w.pending = (name, origin) :: rest) (hl : l.load name origin = .ok loaded) :
    l.unlisted (w.advance name rest loaded (l.language.includes loaded.document)).listed +
      (w.advance name rest loaded (l.language.includes loaded.document)).pending.length <
        l.unlisted w.listed + w.pending.length := by
  have h := l.unlisted_newNames w.listed _ (l.includes_includable hl)
  simp only [Worklist.advance, Worklist.list, hw, List.length_append, List.length_map,
    List.length_cons]
  omega

/-- Loads the names of a work list one after the other, up to the first failure. -/
def breadthFirst (w : Worklist Doc) : ClosureResult Doc :=
  match hw : w.pending with
  | [] => .loaded w.loaded
  | (name, origin) :: rest =>
    match hl : l.load name origin with
    | .error f => .failed f
    | .ok loaded =>
      have := l.advance_lt hw hl
      breadthFirst (w.advance name rest loaded (l.language.includes loaded.document))
termination_by l.unlisted w.listed + w.pending.length

theorem breadthFirst_of_nil {w : Worklist Doc} (h : w.pending = []) :
    l.breadthFirst w = .loaded w.loaded := by
  rw [breadthFirst]
  split
  · rfl
  · next hw => simp [h] at hw

theorem breadthFirst_of_error {w : Worklist Doc} {name : Text} {origin : Option Text}
    {rest : List (Text × Option Text)} {f : LoadFailure}
    (h : w.pending = (name, origin) :: rest) (hl : l.load name origin = .error f) :
    l.breadthFirst w = .failed f := by
  rw [breadthFirst]
  split
  · next hw => simp [h] at hw
  · next hw =>
    rw [h] at hw
    cases hw
    split
    · next f' hf =>
      rw [hl] at hf
      cases hf
      rfl
    · next hf => simp [hl] at hf

theorem breadthFirst_of_ok {w : Worklist Doc} {name : Text} {origin : Option Text}
    {rest : List (Text × Option Text)} {loaded : LoadedUnit Doc}
    (h : w.pending = (name, origin) :: rest) (hl : l.load name origin = .ok loaded) :
    l.breadthFirst w =
      l.breadthFirst (w.advance name rest loaded (l.language.includes loaded.document)) := by
  rw [breadthFirst]
  split
  · next hw => simp [h] at hw
  · next hw =>
    rw [h] at hw
    cases hw
    split
    · next hf => simp [hl] at hf
    · next loaded' hf =>
      rw [hl] at hf
      cases hf
      rfl

end Loader

def onlyProbe (root : Text) (x : Text × Option Text) : Probe :=
  ⟨x.1, x.2, root, []⟩

def attempts (xs : List (Text × Option Text)) : List Job :=
  xs.map fun x => .attempt x.1 x.2

def hops (root : Text) (xs : List (Text × Option Text)) : List Job :=
  xs.map fun x => .hop (onlyProbe root x)

def resumes (root : Text) (xs : List (Text × Option Text)) : List Job :=
  xs.map fun x => .resume (onlyProbe root x)

/-- How the jobs of the names in flight stand in the queue. Every name passes through the same three
jobs, so at most two kinds of them are queued at a time. -/
inductive Lined (root : Text) : List Job → List (Text × Option Text) → Prop
  | attempting (front back : List (Text × Option Text)) :
      Lined root (attempts front ++ hops root back) (back ++ front)
  | hopping (front back : List (Text × Option Text)) :
      Lined root (hops root front ++ resumes root back) (back ++ front)
  | resuming (front back : List (Text × Option Text)) :
      Lined root (resumes root front ++ attempts back) (front ++ back)

namespace Lined

variable {root : Text} {job : Job} {queue : List Job} {pending : List (Text × Option Text)}

theorem pending_eq_nil (h : Lined root [] pending) : pending = [] := by
  generalize hq : ([] : List Job) = q at h
  cases h <;> simp_all [attempts, hops, resumes]

theorem attempted (x : Text × Option Text) (front back : List (Text × Option Text)) :
    Lined root (attempts front ++ hops root back ++ [.hop (onlyProbe root x)])
      (back ++ x :: front) := by
  simpa [hops] using @attempting root front (back ++ [x])

theorem hopped (x : Text × Option Text) (front back : List (Text × Option Text)) :
    Lined root (hops root front ++ resumes root back ++ [.resume (onlyProbe root x)])
      (back ++ x :: front) := by
  simpa [resumes] using @hopping root front (back ++ [x])

theorem resumed (front back new : List (Text × Option Text)) :
    Lined root (resumes root front ++ attempts back ++ attempts new) (front ++ back ++ new) := by
  simpa [attempts] using @resuming root front (back ++ new)

theorem next (h : Lined root (job :: queue) pending) :
    (∃ x, job = .attempt x.1 x.2 ∧ Lined root (queue ++ [.hop (onlyProbe root x)]) pending) ∨
    (∃ x, job = .hop (onlyProbe root x) ∧
      Lined root (queue ++ [.resume (onlyProbe root x)]) pending) ∨
    ∃ x rest, job = .resume (onlyProbe root x) ∧ pending = x :: rest ∧
      ∀ new, Lined root (queue ++ attempts new) (rest ++ new) := by
  -- The name whose load is looked at is always the first one of the work list.
  generalize hq : job :: queue = q at h
  cases h with
  | attempting front back =>
    cases front with
    | cons x front =>
      obtain ⟨rfl, rfl⟩ := List.cons_eq_cons.1 hq
      exact .inl ⟨x, rfl, attempted x front back⟩
    | nil =>
      cases back with
      | nil => cases hq
      | cons x back =>
        obtain ⟨rfl, rfl⟩ := List.cons_eq_cons.1 hq
        have hl := @hopped root x back []
        exact .inr (.inl ⟨x, rfl, by simpa [hops, resumes] using hl⟩)
  | hopping front back =>
    cases front with
    | cons x front =>
      obtain ⟨rfl, rfl⟩ := List.cons_eq_cons.1 hq
      exact .inr (.inl ⟨x, rfl, hopped x front back⟩)
    | nil =>
      cases back with
      | nil => cases hq
      | cons x back =>
        obtain ⟨rfl, rfl⟩ := List.cons_eq_cons.1 hq
        have hl : ∀ new, Lined root (resumes root back ++ attempts new) (back ++ new) := by
          intro new
          simpa [attempts] using @resumed root back [] new
        exact .inr (.inr ⟨x, back, rfl, by simp, hl⟩)
  | resuming front back =>
    cases front with
    | cons x front =>
      obtain ⟨rfl, rfl⟩ := List.cons_eq_cons.1 hq
      exact .inr (.inr ⟨x, front ++ back, rfl, rfl, fun new => resumed front back new⟩)
    | nil =>
      cases back with
      | nil => cases hq
      | cons x back =>
        obtain ⟨rfl, rfl⟩ := List.cons_eq_cons.1 hq
        have hl := @attempted root x back []
        exact .inl ⟨x, rfl, by simpa [attempts, hops] using hl⟩

end Lined

namespace Closure.State

theorem units_eq {s : State Doc} {us : List (Text × LoadedUnit Doc)}
    (hr : s.registered = us.map Prod.fst) (hu : ∀ r ∈ us, s.unit? r.1 = some r.2) :
    s.units = us := by
  rw [units, hr]
  clear hr
  induction us with
  | nil => rfl
  | cons r us ih =>
    rw [List.map_cons, List.filterMap_cons, hu r List.mem_cons_self]
    exact congrArg (r :: ·) (ih fun r' hr' => hu r' (List.mem_cons_of_mem _ hr'))

theorem failure?_of_ok {s : State Doc} {us : List (Text × LoadedUnit Doc)}
    (h : s.settled = us.map fun r => (r.1, .ok r.2)) : s.failure? = none := by
  rw [failure?, h, List.findSome?_map]
  exact List.findSome?_eq_none_iff.2 fun r _ => rfl

theorem failure?_settle_error {s : State Doc} (h : s.failure? = none) (name : Text)
    (f : LoadFailure) : (s.settle name (.error f)).failure? = some f := by
  rw [failure?] at h ⊢
  rw [settle_settled, List.findSome?_append, h]
  rfl

end Closure.State

namespace Loader

variable (l : Loader Doc)

/-- A run and a work list that have come equally far. -/
structure Matches (root : Text) (s : State Doc) (w : Worklist Doc) : Prop where
  lined : Lined root s.queue w.pending
  registered : s.registered = w.listed
  settled : s.settled = w.loaded.map fun r => (r.1, .ok r.2)
  watched : s.watched = []
  listed : w.loaded.map Prod.fst ++ w.pending.map Prod.fst = w.listed
  nodup : w.listed.Nodup

variable {l} {root : Text}

theorem start_of_none (hc : l.cancelOn = none) (names : List Text) :
    l.start names =
      { State.empty with
        registered := newNames [] names
        queue := attempts ((newNames [] names).map fun name => (name, none))
        events := (newNames [] names).map (.registered · none) } := by
  simp [start, hc, State.requestAll_empty, attempts, Function.comp_def]

theorem matches_start (hc : l.cancelOn = none) (names : List Text) :
    Matches root (l.start names) (Worklist.start names) := by
  rw [start_of_none hc]
  constructor
  · simpa [hops, Worklist.start, Worklist.list] using
      @Lined.attempting root ((newNames [] names).map (·, none)) []
  · rfl
  · rfl
  · rfl
  · simp [Worklist.start, Worklist.list, Function.comp_def]
  · exact newNames_nodup [] names

variable {s : State Doc} {w : Worklist Doc}

theorem Matches.moves (h : Matches root s w) {s' : State Doc} (hl : Lined root s'.queue w.pending)
    (hr : s'.registered = s.registered) (hs : s'.settled = s.settled)
    (hw : s'.watched = s.watched) : Matches root s' w :=
  ⟨hl, hr.trans h.registered, hs.trans h.settled, hw.trans h.watched, h.listed, h.nodup⟩

theorem Matches.failure? (h : Matches root s w) : s.failure? = none :=
  State.failure?_of_ok h.settled

theorem Matches.advances (h : Matches root s w) {x : Text × Option Text}
    {rest : List (Text × Option Text)} {queue : List Job} (hp : w.pending = x :: rest)
    (hl : ∀ new, Lined root (queue ++ attempts new) (rest ++ new)) (e : LoadEvent)
    (loaded : LoadedUnit Doc) (includes : List Text) :
    Matches root
      ((({ s with queue }.note e).requestAll (some x.1) includes).settle x.1 (.ok loaded))
      (w.advance x.1 rest loaded includes) := by
  -- The new names go to the end of the register and to the end of the work list.
  have hf : ({ s with queue }.note e).failure? = none := h.failure?
  rw [State.requestAll_of_none hf, State.settle]
  simp only [State.note, h.watched, List.not_mem_nil, if_false, h.registered, h.settled]
  constructor
  · simpa [attempts, Worklist.advance, Worklist.list, Function.comp_def] using
      hl ((newNames w.listed includes).map (·, some x.1))
  · rfl
  · simp [Worklist.advance, Worklist.list]
  · rfl
  · simp [Worklist.advance, Worklist.list, ← h.listed, hp, Function.comp_def]
  · exact append_newNames_nodup h.nodup includes

theorem Matches.ends (h : Matches root s w) (hp : w.pending = []) :
    s.answer = .loaded w.loaded := by
  have hn : w.loaded.map Prod.fst = w.listed := by simpa [hp] using h.listed
  have hs : (s.settled.map Prod.fst).Nodup := by
    rw [h.settled, List.map_map]
    exact (hn ▸ h.nodup : (w.loaded.map Prod.fst).Nodup)
  rw [State.answer_loaded h.failure?, State.units_eq (h.registered.trans hn.symm)]
  intro r hr
  rw [State.unit?_eq_some_iff hs, h.settled]
  exact List.mem_map_of_mem hr

theorem load_only (hroots : l.roots = [root]) (x : Text × Option Text) :
    l.load x.1 x.2 = match l.reader.read (onlyProbe root x).path with
      | .unreadable _ => .error (.error (.notFound x.1 x.2))
      | .broken f => .error (.fault f)
      | .text t => LoadedUnit.ofText l.language x.1 root t := by
  rw [load, hroots, loadUnit]
  show _ = match l.reader.read (probePath root x.1) with
    | .unreadable _ => _
    | .broken f => _
    | .text t => _
  cases l.reader.read (probePath root x.1) <;> rfl

theorem resume_of_error (hroots : l.roots = [root]) (hs : s.failure? = none)
    {x : Text × Option Text} {f : LoadFailure} (hl : l.load x.1 x.2 = .error f) :
    (l.resume s (onlyProbe root x)).failure? = some f := by
  rw [load_only hroots] at hl
  cases hr : l.reader.read (onlyProbe root x).path with
  | unreadable e =>
    simp only [hr, Except.error.injEq] at hl
    rw [resume_unreadable l s hr, ← hl]
    exact State.failure?_settle_error (s := s.note _) hs _ _
  | broken f' =>
    simp only [hr, Except.error.injEq] at hl
    rw [resume_broken l s hr, ← hl]
    exact State.failure?_settle_error hs _ _
  | text t =>
    simp only [hr] at hl
    rw [resume_refused l s hr hl]
    exact State.failure?_settle_error (s := s.note _) hs _ _

theorem resume_of_ok (hroots : l.roots = [root]) (s : State Doc) {x : Text × Option Text}
    {loaded : LoadedUnit Doc} (hl : l.load x.1 x.2 = .ok loaded) :
    l.resume s (onlyProbe root x) =
      ((s.note (.parsing x.1 (probePath root x.1))).requestAll (some x.1)
        (l.language.includes loaded.document)).settle x.1 (.ok loaded) := by
  rw [load_only hroots] at hl
  cases hr : l.reader.read (onlyProbe root x).path with
  | unreadable e => simp [hr] at hl
  | broken f => simp [hr] at hl
  | text t =>
    simp only [hr] at hl
    exact resume_loaded l s hr hl

/-- From states that have come equally far the run and the loop come to the same answer. -/
theorem Matches.answer (hroots : l.roots = [root]) (hc : l.cancelOn = none)
    (h : Matches root s w) : (l.run s).answer = l.breadthFirst w := by
  induction s using l.run_induction generalizing w with
  | nil s hq =>
    have hp : w.pending = [] := (hq ▸ h.lined).pending_eq_nil
    rw [l.run_of_nil hq, h.ends hp, l.breadthFirst_of_nil hp]
  | cons s job queue hq ih =>
    rw [l.run_of_cons hq]
    obtain ⟨x, rfl, hl⟩ | ⟨x, rfl, hl⟩ | ⟨x, rest, rfl, hp, hl⟩ := (hq ▸ h.lined).next
    · apply ih
      rw [perform, hroots, tryRoots_cons l _ hc]
      exact h.moves hl rfl rfl rfl
    · exact ih (h.moves hl rfl rfl rfl)
    · cases hx : l.load x.1 x.2 with
      | error f =>
        -- The run may go on with loads that the loop never begins, but its first failure is known.
        have hf := resume_of_error (s := { s with queue }) hroots h.failure? hx
        rw [perform, State.answer_failed (l.run_failure? hf), l.breadthFirst_of_error hp hx]
      | ok loaded =>
        rw [l.breadthFirst_of_ok hp hx]
        apply ih
        rw [perform, resume_of_ok hroots _ hx]
        exact h.advances hp hl _ loaded _

variable (l)

theorem breadthFirst_unwatched (w : Worklist Doc) :
    l.unwatched.breadthFirst w = l.breadthFirst w := by
  induction w using breadthFirst.induct l with
  | case1 w hw => rw [l.breadthFirst_of_nil hw, l.unwatched.breadthFirst_of_nil hw]
  | case2 w name origin rest hw f hl =>
    rw [l.breadthFirst_of_error hw hl, l.unwatched.breadthFirst_of_error hw hl]
  | case3 w name origin rest hw loaded hl _ ih =>
    rw [l.breadthFirst_of_ok hw hl, l.unwatched.breadthFirst_of_ok hw hl, ← ih]
    rfl

/-- With a single root a closure is what the loop makes of the initial names: the same units in the
same order, or the same failure. -/
theorem loadClosure_breadthFirst {names : List Text} (hroots : l.roots = [root])
    (h : (l.loadClosure names).1 ≠ .cancelled) :
    (l.loadClosure names).1 = l.breadthFirst (Worklist.start names) := by
  have hc := l.unwatched.cancelled_of_ne (l.unwatched_loadClosure_ne names)
  rw [l.loadClosure_unwatched h, loadClosure_answer hc, ← l.breadthFirst_unwatched]
  exact (matches_start rfl names).answer hroots rfl

/-- A file that includes a missing one and one that includes a third. -/
def missing : Loader Text where
  reader := .ofFiles [("r/a.ice".toList, .text ['b', 'c']), ("r/c.ice".toList, .text ['d'])]
  language := letters
  roots := [['r']]

theorem loadClosure_breadthFirst_missing :
    missing.roots = [['r']] ∧ (missing.loadClosure [['a']]).1 ≠ .cancelled ∧
    missing.breadthFirst (Worklist.start [['a']]) =
      .failed (.error (.notFound ['b'] (some ['a']))) := by
  have h : (missing.loadClosure [['a']]).1 ≠ .cancelled := missing.loadClosure_ne_cancelled rfl _
  have hb := missing.loadClosure_breadthFirst rfl h
  rw [loadClosure_runFor (n := 9) (by decide) (by decide)] at hb
  exact ⟨rfl, h, hb.symm⟩

end Loader

end SliceIdl
