import SliceIdl.Proofs.Load.Ledger

/-!
# What a closure holds

The names that the initial names lead to are those that can be reached from them through the
includes of units that can be loaded. A run registers such names only, for a reason that it keeps
with each of them, and all of them unless a unit fails. So it gives every one of these units, or
else the failure of one of them.
-/

set_option autoImplicit false

namespace SliceIdl
open Closure

variable {Doc : Type}

theorem loadUnit_ok {reader : Reader} {language : Language Doc} {name : Text}
    {origin : Option Text} {roots : List Text} {loaded : LoadedUnit Doc}
    (h : (loadUnit reader language name origin roots).2 = .ok loaded) (origin' : Option Text) :
    (loadUnit reader language name origin' roots).2 = .ok loaded := by
  induction roots with
  | nil => cases h
  | cons root roots ih =>
    rw [loadUnit] at h ⊢
    cases hr : reader.read (probePath root name) with
    | unreadable e =>
      simp only [hr] at h ⊢
      exact ih h
    | broken f => simp [hr] at h
    | text t => simpa [hr] using h

theorem loadUnit_append {reader : Reader} {language : Language Doc} {name : Text}
    {origin : Option Text} {before : List Text}
    (h : ∀ root ∈ before, ∃ e, reader.read (probePath root name) = .unreadable e)
    (after : List Text) :
    (loadUnit reader language name origin (before ++ after)).2 =
      (loadUnit reader language name origin after).2 := by
  induction before with
  | nil => rfl
  | cons root before ih =>
    rw [List.forall_mem_cons] at h
    obtain ⟨⟨e, he⟩, hbefore⟩ := h
    rw [List.cons_append, loadUnit]
    simp only [he]
    exact ih hbefore

theorem loadUnit_first {reader : Reader} {language : Language Doc} {name : Text}
    {origin : Option Text} {roots : List Text} {loaded : LoadedUnit Doc}
    (h : (loadUnit reader language name origin roots).2 = .ok loaded) :
    (∃ before after, roots = before ++ loaded.root :: after ∧
      ∀ root ∈ before, ∃ e, reader.read (probePath root name) = .unreadable e) ∧
    reader.read (probePath loaded.root name) = .text loaded.contents ∧
    language.parse loaded.contents = .ok loaded.document := by
  induction roots with
  | nil => cases h
  | cons root roots ih =>
    rw [loadUnit] at h
    cases hr : reader.read (probePath root name) with
    | unreadable e =>
      simp only [hr] at h
      obtain ⟨⟨before, after, rfl, hb⟩, hread, hparse⟩ := ih h
      have hb' : ∀ r ∈ root :: before, ∃ e, reader.read (probePath r name) = .unreadable e := by
        intro r hmem
        rcases List.mem_cons.1 hmem with rfl | hmem
        · exact ⟨e, hr⟩
        · exact hb r hmem
      exact ⟨⟨root :: before, after, rfl, hb'⟩, hread, hparse⟩
    | broken f => simp [hr] at h
    | text t =>
      simp only [hr, LoadedUnit.ofText] at h
      split at h
      · next document hd =>
        rw [Except.ok.injEq] at h
        subst h
        exact ⟨⟨[], roots, rfl, fun r hmem => absurd hmem List.not_mem_nil⟩, hr, hd⟩
      · cases h

theorem loadUnit_notFound {reader : Reader} {language : Language Doc} {name name' : Text}
    {origin origin' : Option Text} {roots : List Text}
    (h : (loadUnit reader language name origin roots).2 =
      .error (.error (.notFound name' origin'))) : name' = name ∧ origin' = origin := by
  induction roots with
  | nil =>
    simp only [loadUnit, Except.error.injEq, LoadFailure.error.injEq, LoadError.notFound.injEq] at h
    exact ⟨h.1.symm, h.2.symm⟩
  | cons root roots ih =>
    rw [loadUnit] at h
    cases hr : reader.read (probePath root name) with
    | unreadable e =>
      simp only [hr] at h
      exact ih h
    | broken f => simp [hr] at h
    | text t =>
      simp only [hr, LoadedUnit.ofText] at h
      split at h <;> simp at h

namespace Loader

variable (l : Loader Doc)

/-- How a unit comes out when it is loaded alone. -/
def load (name : Text) (origin : Option Text) : Except LoadFailure (LoadedUnit Doc) :=
  (loadUnit l.reader l.language name origin l.roots).2

/-- The names that the initial names lead to. -/
inductive Reachable (names : List Text) : Text → Prop
  | initial {name : Text} (h : name ∈ names) : Reachable names name
  | included {name included : Text} {loaded : LoadedUnit Doc} (h : Reachable names name)
      (hl : l.load name none = .ok loaded) (hi : included ∈ l.language.includes loaded.document) :
      Reachable names included

/-- The reason for which a name is loaded: it is an initial name, or else a unit includes it. -/
def Origin (names : List Text) (name : Text) : Option Text → Prop
  | none => name ∈ names
  | some includer => name ∉ names ∧ l.Reachable names includer ∧
      ∃ loaded, l.load includer none = .ok loaded ∧ name ∈ l.language.includes loaded.document

variable {l} {names : List Text}

theorem Origin.reachable {name : Text} {origin : Option Text} (h : l.Origin names name origin) :
    l.Reachable names name := by
  cases origin with
  | none => exact .initial h
  | some includer =>
    obtain ⟨-, hr, loaded, hl, hi⟩ := h
    exact .included hr hl hi

theorem Origin.eq_none_iff {name : Text} {origin : Option Text} (h : l.Origin names name origin) :
    origin = none ↔ name ∈ names := by
  cases origin with
  | none => exact ⟨fun _ => h, fun _ => rfl⟩
  | some includer => exact ⟨fun hn => (by cases hn), fun hn => absurd hn h.1⟩

variable (l names)

/-- The ledger of a run on the way to its closure: every registered name is in flight or has
settled, but not both, every load has a reason and comes out as if it was the only one, and while
no unit has failed nothing that a unit includes is missing. -/
structure Sound (b : Ledger Doc) : Prop where
  nodup : b.registered.Nodup
  named : b.pending.map Account.name + ↑(b.settled.map Prod.fst) = (b.registered : Multiset Text)
  initial : ∀ name ∈ names, name ∈ b.registered
  pending : ∀ a ∈ b.pending,
    l.Origin names a.name a.includedFrom ∧ a.result = l.load a.name a.includedFrom
  settled : ∀ r ∈ b.settled, ∃ origin, l.Origin names r.1 origin ∧ r.2 = l.load r.1 origin
  covered : ¬ b.failed → ∀ name loaded, (name, .ok loaded) ∈ b.settled →
    ∀ included ∈ l.language.includes loaded.document, included ∈ b.registered

theorem sound_start : l.Sound names (l.startLedger names) where
  nodup := newNames_nodup [] names
  named := by simp [startLedger, account, Function.comp_def]
  initial := fun name h => mem_newNames.2 ⟨h, List.not_mem_nil⟩
  pending := by
    intro a ha
    obtain ⟨name, hn, rfl⟩ := List.mem_map.1 (Multiset.mem_coe.1 ha)
    exact ⟨(mem_newNames.1 hn).1, rfl⟩
  settled := fun r h => absurd h List.not_mem_nil
  covered := fun _ name loaded h => absurd h List.not_mem_nil

variable {l names} {b : Ledger Doc} {a : Account Doc}

theorem Sound.account (h : l.Sound names (b.opening a)) :
    l.Origin names a.name a.includedFrom ∧ a.result = l.load a.name a.includedFrom :=
  h.pending a (Multiset.mem_cons_self ..)

theorem Sound.settle_named (h : l.Sound names (b.opening a))
    (result : Except LoadFailure (LoadedUnit Doc)) :
    b.pending.map Account.name + ↑((b.settled ++ [(a.name, result)]).map Prod.fst) =
      (b.registered : Multiset Text) := by
  have hn := h.named
  simp only [Ledger.opening, Multiset.map_cons] at hn
  rw [← hn, List.map_append, ← Multiset.coe_add, ← add_assoc, add_comm, Multiset.cons_add]
  exact Multiset.singleton_add a.name _

theorem Sound.settle_settled (h : l.Sound names (b.opening a)) :
    ∀ r ∈ b.settled ++ [(a.name, a.result)],
      ∃ origin, l.Origin names r.1 origin ∧ r.2 = l.load r.1 origin := by
  intro r hr
  rcases List.mem_append.1 hr with hold | hnew
  · exact h.settled r hold
  · rw [List.mem_singleton] at hnew
    subst hnew
    exact ⟨a.includedFrom, h.account⟩

theorem Sound.load (h : l.Sound names (b.opening a)) {loaded : LoadedUnit Doc}
    (hr : a.result = .ok loaded) : l.load a.name none = .ok loaded :=
  loadUnit_ok (h.account.2 ▸ hr) none

theorem Sound.leaves (h : l.Sound names (b.opening a)) (es es' : List LoadEvent) :
    l.Sound names { b.opening { a with events := es } with events := es' } where
  nodup := h.nodup
  named := by simpa [Ledger.opening] using h.named
  initial := h.initial
  pending := by
    intro a' ha'
    rcases Multiset.mem_cons.1 ha' with rfl | hold
    · exact h.account
    · exact h.pending a' (Multiset.mem_cons_of_mem hold)
  settled := h.settled
  covered := h.covered

theorem Sound.new_origin (h : l.Sound names (b.opening a)) {loaded : LoadedUnit Doc}
    (hr : a.result = .ok loaded) {name : Text}
    (hn : name ∈ newNames b.registered (l.language.includes loaded.document)) :
    l.Origin names name (some a.name) := by
  obtain ⟨hi, hnew⟩ := mem_newNames.1 hn
  exact ⟨fun hmem => hnew (h.initial name hmem), h.account.1.reachable, loaded, h.load hr, hi⟩

theorem Sound.succeeds (h : l.Sound names (b.opening a)) {loaded : LoadedUnit Doc}
    (hr : a.result = .ok loaded) (hb : ¬ b.failed) (es : List LoadEvent) :
    l.Sound names
      { registered := b.registered ++ newNames b.registered (l.language.includes loaded.document)
        pending := b.pending + ↑((newNames b.registered (l.language.includes loaded.document)).map
          (l.account · (some a.name) l.roots))
        settled := b.settled ++ [(a.name, .ok loaded)]
        events := es } where
  nodup := append_newNames_nodup h.nodup _
  named := by
    rw [← Multiset.coe_add, ← h.settle_named (.ok loaded), Multiset.map_add, Multiset.map_coe,
      List.map_map, add_right_comm]
    simp [Loader.account, Function.comp_def]
  initial := fun name hn => List.mem_append_left _ (h.initial name hn)
  pending := by
    intro a' ha'
    rcases Multiset.mem_add.1 ha' with hold | hnew
    · exact h.pending a' (Multiset.mem_cons_of_mem hold)
    · obtain ⟨name, hn, rfl⟩ := List.mem_map.1 (Multiset.mem_coe.1 hnew)
      exact ⟨h.new_origin hr hn, rfl⟩
  settled := hr ▸ h.settle_settled
  covered := by
    intro _ name loaded' hmem included hi
    rcases List.mem_append.1 hmem with hold | hnew
    · exact List.mem_append_left _ (h.covered hb name loaded' hold included hi)
    · simp only [List.mem_singleton, Prod.mk.injEq, Except.ok.injEq] at hnew
      rw [hnew.2] at hi
      exact subset_append_newNames _ _ included hi

theorem Sound.settle_failed (h : l.Sound names (b.opening a)) (es : List LoadEvent)
    (hb : Ledger.failed { b with settled := b.settled ++ [(a.name, a.result)], events := es }) :
    l.Sound names { b with settled := b.settled ++ [(a.name, a.result)], events := es } where
  nodup := h.nodup
  named := h.settle_named a.result
  initial := h.initial
  pending := fun a' ha' => h.pending a' (Multiset.mem_cons_of_mem ha')
  settled := h.settle_settled
  covered := fun hn => absurd hb hn

theorem Sound.posts {b b' : Ledger Doc} (h : l.Sound names b) (hp : l.Posts b b') :
    l.Sound names b' := by
  cases hp with
  | leaves he => exact h.leaves _ _
  | @fails b a f he hr =>
    have hs := h.settle_failed b.events ⟨a.name, f, by simp [hr]⟩
    rwa [hr] at hs
  | succeeds he hr hb hn =>
    subst hn
    exact h.succeeds hr hb _
  | succeedsLate he hr hb =>
    obtain ⟨name, f, hf⟩ := hb
    rw [← hr]
    exact h.settle_failed _ ⟨name, f, List.mem_append_left _ hf⟩

theorem sound_of_reaches {s : State Doc} (h : l.Reaches names s) (hc : s.cancelled = false) :
    l.Sound names (l.ledger s) :=
  l.reaches_induction (l.sound_start names) (fun _ _ hb hp => hb.posts hp) h hc

theorem Sound.settled_perm (h : l.Sound names b) (hp : b.pending = 0) :
    (b.settled.map Prod.fst).Perm b.registered := by
  have hn := h.named
  rw [hp, Multiset.map_zero, zero_add] at hn
  exact Multiset.coe_eq_coe.1 hn

theorem Sound.reachable (h : l.Sound names b) (hp : b.pending = 0) {name : Text}
    (hn : name ∈ b.registered) : l.Reachable names name := by
  obtain ⟨r, hr, rfl⟩ := List.mem_map.1 ((h.settled_perm hp).mem_iff.2 hn)
  obtain ⟨origin, ho, -⟩ := h.settled r hr
  exact ho.reachable

theorem Sound.settled_ok (h : l.Sound names b) (hp : b.pending = 0) (hb : ¬ b.failed) {name : Text}
    (hn : name ∈ b.registered) :
    ∃ loaded, l.load name none = .ok loaded ∧ (name, .ok loaded) ∈ b.settled := by
  obtain ⟨⟨_, result⟩, hr, rfl⟩ := List.mem_map.1 ((h.settled_perm hp).mem_iff.2 hn)
  cases result with
  | error f => exact absurd ⟨_, f, hr⟩ hb
  | ok loaded =>
    obtain ⟨origin, -, hl⟩ := h.settled _ hr
    exact ⟨loaded, loadUnit_ok hl.symm none, hr⟩

theorem Sound.registered_iff (h : l.Sound names b) (hp : b.pending = 0) (hb : ¬ b.failed)
    (name : Text) : name ∈ b.registered ↔ l.Reachable names name := by
  constructor
  · exact h.reachable hp
  · intro hr
    induction hr with
    | initial hn => exact h.initial _ hn
    | included hr hl hi ih =>
      obtain ⟨loaded, hl', hs⟩ := h.settled_ok hp hb ih
      rw [hl, Except.ok.injEq] at hl'
      exact h.covered hb _ loaded hs _ (hl' ▸ hi)

/-- A failure is that of a name that is reached, and it is told with the reason for that name. -/
theorem Sound.failure (h : l.Sound names b) {name : Text} {f : LoadFailure}
    (hf : (name, .error f) ∈ b.settled) :
    ∃ origin, l.Origin names name origin ∧ l.load name origin = .error f ∧
      ∀ name' origin', f = .error (.notFound name' origin') → name' = name ∧ origin' = origin := by
  obtain ⟨origin, ho, hl⟩ := h.settled _ hf
  have htold : ∀ name' origin', f = .error (.notFound name' origin') →
      name' = name ∧ origin' = origin := by
    rintro name' origin' rfl
    exact loadUnit_notFound hl.symm
  exact ⟨origin, ho, hl.symm, htold⟩

variable (l)

theorem ledger_pending {s : State Doc} (h : s.queue = []) : (l.ledger s).pending = 0 := by
  simp [ledger, h]

theorem units_names {names : List Text} {s : State Doc} (h : l.Ends names s)
    (hc : s.cancelled = false) (hf : s.failure? = none) : s.units.map Prod.fst = s.registered := by
  have hs := l.sound_of_reaches h.1 hc
  have hp := l.ledger_pending h.2
  have hb : ¬ (l.ledger s).failed := by simp [failed_ledger_iff, hf]
  have hn : (s.settled.map Prod.fst).Nodup := (hs.settled_perm hp).nodup_iff.2 hs.nodup
  refine State.units_map_fst fun name hr => ?_
  obtain ⟨loaded, -, hmem⟩ := hs.settled_ok hp hb hr
  rw [(State.unit?_eq_some_iff hn).2 hmem]
  rfl

theorem units_reachable {names : List Text} {s : State Doc} (h : l.Ends names s)
    (hc : s.cancelled = false) (hf : s.failure? = none) :
    (s.units.map Prod.fst).Nodup ∧
    (∀ name, name ∈ s.units.map Prod.fst ↔ l.Reachable names name) ∧
    ∀ name loaded, (name, loaded) ∈ s.units → l.load name none = .ok loaded := by
  have hs := l.sound_of_reaches h.1 hc
  have hp := l.ledger_pending h.2
  have hb : ¬ (l.ledger s).failed := by simp [failed_ledger_iff, hf]
  have hload : ∀ name loaded, (name, loaded) ∈ s.units → l.load name none = .ok loaded := by
    intro name loaded hu
    obtain ⟨origin, -, hl⟩ := hs.settled _ (State.mem_settled_of_mem_units hu)
    exact loadUnit_ok hl.symm none
  rw [l.units_names h hc hf]
  exact ⟨hs.nodup, hs.registered_iff hp hb, hload⟩

theorem run_of_loaded {names : List Text} {units : List (Text × LoadedUnit Doc)}
    (h : (l.loadClosure names).1 = .loaded units) :
    (l.run (l.start names)).cancelled = false ∧ (l.run (l.start names)).failure? = none ∧
      (l.run (l.start names)).units = units := by
  have hc : (l.run (l.start names)).cancelled = false :=
    l.cancelled_of_ne fun hn => by simp [hn] at h
  rw [loadClosure_answer hc] at h
  cases hf : (l.run (l.start names)).failure? with
  | none =>
    rw [State.answer_loaded hf, ClosureResult.loaded.injEq] at h
    exact ⟨hc, rfl, h⟩
  | some f =>
    rw [State.answer_failed hf] at h
    cases h

/-- The units of a closure are those of all names that the initial names lead to. -/
theorem loadClosure_units {names : List Text} {units : List (Text × LoadedUnit Doc)}
    (h : (l.loadClosure names).1 = .loaded units) :
    (units.map Prod.fst).Nodup ∧
    (∀ name, name ∈ units.map Prod.fst ↔ l.Reachable names name) ∧
    ∀ name loaded, (name, loaded) ∈ units → l.load name none = .ok loaded := by
  obtain ⟨hc, hf, rfl⟩ := l.run_of_loaded h
  exact l.units_reachable (l.run_ends names) hc hf

theorem loadClosure_failed {names : List Text} {f : LoadFailure}
    (h : (l.loadClosure names).1 = .failed f) :
    ∃ name origin, l.Origin names name origin ∧ l.load name origin = .error f ∧
      ∀ name' origin', f = .error (.notFound name' origin') → name' = name ∧ origin' = origin := by
  have hc : (l.run (l.start names)).cancelled = false :=
    l.cancelled_of_ne fun hn => by simp [hn] at h
  rw [loadClosure_answer hc] at h
  cases hf : (l.run (l.start names)).failure? with
  | none =>
    rw [State.answer_loaded hf] at h
    cases h
  | some f' =>
    rw [State.answer_failed hf, ClosureResult.failed.injEq] at h
    subst h
    obtain ⟨name, hmem⟩ := State.mem_settled_of_failure? _ hf
    obtain ⟨origin, hfail⟩ := (l.sound_of_reaches (l.run_ends names).1 hc).failure hmem
    exact ⟨name, origin, hfail⟩

/-- A closure is the units of all names that the initial names lead to, each once, if all of them
can be loaded. Otherwise it fails as one of them does, and what is not found is told with its
reason: nothing for an initial name, and else a loaded unit of the closure that includes it. -/
theorem loadClosure_reachable {names : List Text} (h : (l.loadClosure names).1 ≠ .cancelled) :
    ((∃ units, (l.loadClosure names).1 = .loaded units) ↔
      ∀ name, l.Reachable names name → ∃ loaded, l.load name none = .ok loaded) ∧
    (∀ units, (l.loadClosure names).1 = .loaded units →
      (units.map Prod.fst).Nodup ∧
      (∀ name, name ∈ units.map Prod.fst ↔ l.Reachable names name) ∧
      ∀ name loaded, (name, loaded) ∈ units → l.load name none = .ok loaded) ∧
    ((¬ ∀ name, l.Reachable names name → ∃ loaded, l.load name none = .ok loaded) →
      ∃ name origin f, (l.loadClosure names).1 = .failed f ∧ l.Reachable names name ∧
        l.load name origin = .error f ∧
        (∀ name' origin', f = .error (.notFound name' origin') → name' = name ∧ origin' = origin) ∧
        (origin = none ↔ name ∈ names) ∧
        ∀ includer, origin = some includer → l.Reachable names includer ∧
          ∃ loaded, l.load includer none = .ok loaded ∧
            name ∈ l.language.includes loaded.document) := by
  cases hres : (l.loadClosure names).1 with
  | cancelled => exact absurd hres h
  | loaded units =>
    obtain ⟨-, hreach, hload⟩ := l.loadClosure_units hres
    have hok : ∀ name, l.Reachable names name → ∃ loaded, l.load name none = .ok loaded := by
      intro name hr
      obtain ⟨⟨_, loaded⟩, hmem, rfl⟩ := List.mem_map.1 ((hreach name).2 hr)
      exact ⟨loaded, hload _ _ hmem⟩
    rw [← hres]
    exact ⟨⟨fun _ => hok, fun _ => ⟨units, hres⟩⟩, fun _ => l.loadClosure_units,
      fun hn => absurd hok hn⟩
  | failed f =>
    obtain ⟨name, origin, ho, hl, htold⟩ := l.loadClosure_failed hres
    have hnot : ¬ ∀ name, l.Reachable names name → ∃ loaded, l.load name none = .ok loaded := by
      intro hok
      obtain ⟨loaded, hload⟩ := hok name ho.reachable
      have hload' := loadUnit_ok hload origin
      rw [load] at hl
      rw [hl] at hload'
      cases hload'
    constructor
    · constructor
      · rintro ⟨units, hu⟩
        cases hu
      · exact fun hok => absurd hok hnot
    constructor
    · intro units hu
      cases hu
    · intro _
      have hincluder : ∀ includer, origin = some includer → l.Reachable names includer ∧
          ∃ loaded, l.load includer none = .ok loaded ∧
            name ∈ l.language.includes loaded.document := by
        rintro includer rfl
        exact ho.2
      exact ⟨name, origin, f, rfl, ho.reachable, hl, htold, ho.eq_none_iff, hincluder⟩

def letters : Language Text where
  parse := .ok
  includes t := t.map ([·])

/-- A file that includes itself and another one, which includes it again. -/
def cycle : Loader Text where
  reader := .ofFiles [("r/a.ice".toList, .text ['a', 'b']), ("r/b.ice".toList, .text ['a'])]
  language := letters
  roots := [['r']]

theorem loadClosure_cycle :
    (cycle.loadClosure [['a']]).1 ≠ .cancelled ∧
    (cycle.loadClosure [['a']]).1 =
      .loaded [(['a'], ⟨['r'], ['a', 'b'], ['a', 'b']⟩), (['b'], ⟨['r'], ['a'], ['a']⟩)] ∧
    cycle.Reachable [['a']] ['b'] ∧ ¬ cycle.Reachable [['a']] ['c'] := by
  have hu : (cycle.loadClosure [['a']]).1 =
      .loaded [(['a'], ⟨['r'], ['a', 'b'], ['a', 'b']⟩), (['b'], ⟨['r'], ['a'], ['a']⟩)] := by
    rw [loadClosure_runFor (n := 6) (by decide) (by decide)]
    rfl
  have h : (cycle.loadClosure [['a']]).1 ≠ .cancelled := cycle.loadClosure_ne_cancelled rfl _
  obtain ⟨-, hmem, -⟩ := (cycle.loadClosure_reachable h).2.1 _ hu
  exact ⟨h, hu, (hmem ['b']).1 (by decide), fun hr => absurd ((hmem ['c']).2 hr) (by decide)⟩

end Loader

end SliceIdl
