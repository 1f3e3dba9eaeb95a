import SliceIdl.Proofs.Load.Reachability

/-!
# One load for each name

The events of a run are those of its loads, each complete and in its own order, however the loads
overtake each other and whether units fail or not. So the reader is asked for each registered name
what it would be asked if that name was loaded alone, and the parser is handed a text for it once if
the last of its reads gave one, and never otherwise.
-/

set_option autoImplicit false

namespace SliceIdl
open Closure

variable {Doc : Type}

/-- What a log whose entries are tagged with names holds of one name. -/
def ownEntries {α : Type} (tagged : List (Text × α)) (name : Text) : List α :=
  (tagged.filter fun x => x.1 = name).map Prod.snd

theorem ownEntries_append {α : Type} (xs ys : List (Text × α)) (name : Text) :
    ownEntries (xs ++ ys) name = ownEntries xs name ++ ownEntries ys name := by
  simp [ownEntries]

theorem ownEntries_self {α : Type} (name : Text) (x : α) : ownEntries [(name, x)] name = [x] := by
  simp [ownEntries]

theorem ownEntries_other {α : Type} {name name' : Text} (h : name' ≠ name) (x : α) :
    ownEntries [(name, x)] name' = [] := by
  simp [ownEntries, h.symm]

theorem ownEntries_eq_nil {α : Type} {tagged : List (Text × α)} {name : Text}
    (h : ∀ x ∈ tagged, x.1 ≠ name) : ownEntries tagged name = [] := by
  simpa [ownEntries] using h

def mapEntries {α β : Type} (f : α → Option β) (tagged : List (Text × α)) : List (Text × β) :=
  tagged.filterMap fun x => (f x.2).map fun y => (x.1, y)

theorem mapEntries_map_snd {α β : Type} (f : α → Option β) (tagged : List (Text × α)) :
    (mapEntries f tagged).map Prod.snd = (tagged.map Prod.snd).filterMap f := by
  rw [mapEntries, List.map_filterMap, List.filterMap_map]
  congr 1
  funext x
  cases hf : f x.2 <;> simp [hf]

theorem mapEntries_fst_mem {α β : Type} {f : α → Option β} {tagged : List (Text × α)}
    {names : List Text} (h : ∀ x ∈ tagged, x.1 ∈ names) :
    ∀ y ∈ mapEntries f tagged, y.1 ∈ names := by
  intro y hy
  obtain ⟨x, hx, hf⟩ := List.mem_filterMap.1 hy
  obtain ⟨_, -, rfl⟩ := Option.map_eq_some_iff.1 hf
  exact h x hx

theorem ownEntries_mapEntries {α β : Type} (f : α → Option β) (tagged : List (Text × α))
    (name : Text) :
    ownEntries (mapEntries f tagged) name = (ownEntries tagged name).filterMap f := by
  induction tagged with
  | nil => rfl
  | cons x tagged ih =>
    simp only [ownEntries, mapEntries] at ih ⊢
    cases hf : f x.2 <;> by_cases hx : x.1 = name <;> simp [hf, hx, ih]

/-- The whole is made up of one sequence for each of the names, each in its own order: its entries
can be tagged with the names so that each sequence is what is tagged with its name. -/
def Interleaves {α : Type} (names : List Text) (parts : Text → List α) (whole : List α) : Prop :=
  ∃ tagged : List (Text × α), tagged.map Prod.snd = whole ∧ (∀ x ∈ tagged, x.1 ∈ names) ∧
    ∀ name ∈ names, ownEntries tagged name = parts name

theorem Interleaves.filterMap {α β : Type} {names : List Text} {parts : Text → List α}
    {whole : List α} (h : Interleaves names parts whole) (f : α → Option β) :
    Interleaves names (fun name => (parts name).filterMap f) (whole.filterMap f) := by
  obtain ⟨tagged, rfl, hnames, hparts⟩ := h
  refine ⟨mapEntries f tagged, mapEntries_map_snd f tagged, mapEntries_fst_mem hnames, ?_⟩
  intro name hn
  rw [ownEntries_mapEntries, hparts name hn]

def LoadEvent.ofLoad : LoadEvent → Bool
  | read _ _ | unreadable _ _ _ | parsing _ _ => true
  | registered _ _ | notStarted _ | complete _ => false

def LoadEvent.parsing? : LoadEvent → Option (Text × Text)
  | parsing name path => some (name, path)
  | _ => none

theorem LoadEvent.read?_of_not_ofLoad {e : LoadEvent} (h : e.ofLoad = false) : e.read? = none := by
  cases e with
  | read | unreadable | parsing => cases h
  | registered | notStarted | complete => rfl

theorem LoadEvent.parsing?_of_not_ofLoad {e : LoadEvent} (h : e.ofLoad = false) :
    e.parsing? = none := by
  cases e with
  | read | unreadable | parsing => cases h
  | registered | notStarted | complete => rfl

/-- What is read for a name: below the roots in order, until a read does not just fail. -/
def Reader.probes (reader : Reader) (name : Text) : List Text → List (Text × ReadOutcome)
  | [] => []
  | root :: roots =>
    (probePath root name, reader.read (probePath root name)) ::
      match reader.read (probePath root name) with
      | .unreadable _ => probes reader name roots
      | _ => []

/-- What is handed to the parser for a name: the text of the last read, if it gave one. -/
def Reader.handed (reader : Reader) (roots : List Text) (name : Text) : List (Text × Text) :=
  match (reader.probes name roots).getLast? with
  | some (path, .text _) => [(name, path)]
  | _ => []

section

variable {reader : Reader} {language : Language Doc} {name : Text} {roots : List Text}

theorem loadUnit_events (origin : Option Text) :
    (loadUnit reader language name origin roots).1 =
      (loadUnit reader language name none roots).1 := by
  induction roots with
  | nil => rfl
  | cons root roots ih =>
    rw [loadUnit, loadUnit]
    cases hr : reader.read (probePath root name) <;> simp [ih]

theorem loadUnit_ofLoad :
    ∀ e ∈ (loadUnit reader language name none roots).1, e.ofLoad = true := by
  induction roots with
  | nil => simp [loadUnit]
  | cons root roots ih =>
    rw [loadUnit]
    cases hr : reader.read (probePath root name) with
    | unreadable e => simpa [LoadEvent.ofLoad] using ih
    | broken f => simp [LoadEvent.ofLoad]
    | text t => simp [LoadEvent.ofLoad]

theorem loadUnit_reads :
    (loadUnit reader language name none roots).1.filterMap LoadEvent.read? =
      reader.probes name roots := by
  induction roots with
  | nil => rfl
  | cons root roots ih =>
    rw [loadUnit, Reader.probes]
    cases hr : reader.read (probePath root name) with
    | unreadable e =>
      rw [← ih]
      rfl
    | broken f => rfl
    | text t => rfl

theorem loadUnit_handed :
    (loadUnit reader language name none roots).1.filterMap LoadEvent.parsing? =
      reader.handed roots name := by
  induction roots with
  | nil => rfl
  | cons root roots ih =>
    rw [loadUnit, Reader.handed, Reader.probes]
    cases hr : reader.read (probePath root name) with
    | unreadable e =>
      dsimp only
      rw [List.filterMap_cons_none rfl, List.filterMap_cons_none rfl, ih, Reader.handed]
      cases hp : reader.probes name roots with
      | nil => rfl
      | cons probe probes => rw [List.getLast?_cons_cons]
    | broken f => rfl
    | text t => rfl

end

namespace Loader

variable (l : Loader Doc)

/-- The events of a name that is loaded alone. -/
def trace (name : Text) : List LoadEvent :=
  (loadUnit l.reader l.language name none l.roots).1

/-- The events of the loads can be told apart: what each load in flight has left together with what
it has still to leave is what it would leave alone, and so is what each settled load has left. -/
def Traced (b : Ledger Doc) : Prop :=
  ∃ tagged : List (Text × LoadEvent),
    tagged.map Prod.snd = b.events.filter LoadEvent.ofLoad ∧
    (∀ x ∈ tagged, x.1 ∈ b.registered) ∧
    (∀ a ∈ b.pending, ownEntries tagged a.name ++ a.events = l.trace a.name) ∧
    ∀ r ∈ b.settled, ownEntries tagged r.1 = l.trace r.1

theorem account_events (name : Text) (origin : Option Text) :
    (l.account name origin l.roots).events = l.trace name :=
  loadUnit_events origin

theorem ofLoad_registered (names : List Text) (origin : Option Text) :
    (names.map (LoadEvent.registered · origin)).filter LoadEvent.ofLoad = [] := by
  simp [LoadEvent.ofLoad]

theorem ofLoad_notStarted (names : List Text) :
    (names.map LoadEvent.notStarted).filter LoadEvent.ofLoad = [] := by
  simp [LoadEvent.ofLoad]

theorem traced_start (names : List Text) : l.Traced (l.startLedger names) := by
  have hp : ∀ a ∈ (l.startLedger names).pending, a.events = l.trace a.name := by
    intro a ha
    obtain ⟨name, -, rfl⟩ := List.mem_map.1 (Multiset.mem_coe.1 ha)
    exact l.account_events name none
  exact ⟨[], (ofLoad_registered _ _).symm, by simp, hp, by simp [startLedger]⟩

variable {l} {names : List Text} {b : Ledger Doc} {a : Account Doc}

theorem Sound.name_unique (h : l.Sound names (b.opening a)) :
    a.name ∈ b.registered ∧ (∀ a' ∈ b.pending, a'.name ≠ a.name) ∧
      ∀ r ∈ b.settled, r.1 ≠ a.name := by
  have hn : a.name ::ₘ (b.pending.map Account.name + ↑(b.settled.map Prod.fst)) =
      (b.registered : Multiset Text) := by
    rw [← Multiset.cons_add, ← Multiset.map_cons]
    exact h.named
  have hnodup : (a.name ::ₘ (b.pending.map Account.name +
      ↑(b.settled.map Prod.fst)) : Multiset Text).Nodup := hn ▸ Multiset.coe_nodup.2 h.nodup
  have hnot := (Multiset.nodup_cons.1 hnodup).1
  rw [Multiset.mem_add, not_or, Multiset.mem_coe] at hnot
  constructor
  · exact Multiset.mem_coe.1 (hn ▸ Multiset.mem_cons_self ..)
  constructor
  · intro a' ha' he
    exact hnot.1 (he ▸ Multiset.mem_map_of_mem _ ha')
  · intro r hr he
    exact hnot.2 (he ▸ List.mem_map_of_mem hr)

theorem Traced.ofLoad (h : l.Traced (b.opening a)) {e : LoadEvent} {es : List LoadEvent}
    (he : a.events = e :: es) : e.ofLoad = true := by
  obtain ⟨tagged, -, -, hpending, -⟩ := h
  apply loadUnit_ofLoad e
  rw [← trace, ← hpending a (Multiset.mem_cons_self ..), he]
  simp

theorem Traced.leaves (hs : l.Sound names (b.opening a)) (h : l.Traced (b.opening a))
    {e : LoadEvent} {es : List LoadEvent} (he : a.events = e :: es) :
    l.Traced { b.opening { a with events := es } with events := b.events ++ [e] } := by
  have hload := h.ofLoad he
  obtain ⟨tagged, hmap, hreg, hpending, hsettled⟩ := h
  obtain ⟨hname, hother, hold⟩ := hs.name_unique
  have hown := hpending a (Multiset.mem_cons_self ..)
  refine ⟨tagged ++ [(a.name, e)], ?_, ?_, ?_, ?_⟩
  · rw [List.map_append, hmap, List.filter_append]
    simp [hload, Ledger.opening]
  · intro x hx
    rcases List.mem_append.1 hx with hx | hx
    · exact hreg x hx
    · rw [List.mem_singleton] at hx
      exact hx ▸ hname
  · intro a' ha'
    rcases Multiset.mem_cons.1 ha' with rfl | hmem
    · rw [ownEntries_append, ownEntries_self, List.append_assoc, List.singleton_append, ← he]
      exact hown
    · rw [ownEntries_append, ownEntries_other (hother a' hmem), List.append_nil]
      exact hpending a' (Multiset.mem_cons_of_mem hmem)
  · intro r hr
    rw [ownEntries_append, ownEntries_other (hold r hr), List.append_nil]
    exact hsettled r hr

theorem Traced.settles (h : l.Traced (b.opening a)) (he : a.events = []) (new : List Text)
    (hnew : ∀ name ∈ new, name ∉ b.registered) (origin : Option Text)
    (result : Except LoadFailure (LoadedUnit Doc)) (es : List LoadEvent)
    (hes : es.filter LoadEvent.ofLoad = []) :
    l.Traced
      { registered := b.registered ++ new
        pending := b.pending + ↑(new.map (l.account · origin l.roots))
        settled := b.settled ++ [(a.name, result)]
        events := b.events ++ es } := by
  obtain ⟨tagged, hmap, hreg, hpending, hsettled⟩ := h
  refine ⟨tagged, ?_, fun x hx => List.mem_append_left _ (hreg x hx), ?_, ?_⟩
  · rw [List.filter_append, hes, List.append_nil]
    exact hmap
  · intro a' ha'
    rcases Multiset.mem_add.1 ha' with hmem | hmem
    · exact hpending a' (Multiset.mem_cons_of_mem hmem)
    · obtain ⟨name, hn, rfl⟩ := List.mem_map.1 (Multiset.mem_coe.1 hmem)
      have hnone : ownEntries tagged name = [] :=
        ownEntries_eq_nil fun x hx hname => hnew name hn (hname ▸ hreg x hx)
      rw [l.account_events]
      exact congrArg (· ++ l.trace name) hnone
  · intro r hr
    rcases List.mem_append.1 hr with hmem | hmem
    · exact hsettled r hmem
    · rw [List.mem_singleton] at hmem
      have hown := hpending a (Multiset.mem_cons_self ..)
      rw [he, List.append_nil] at hown
      exact hmem ▸ hown

theorem Traced.posts {b b' : Ledger Doc} (hs : l.Sound names b) (h : l.Traced b)
    (hp : l.Posts b b') : l.Traced b' := by
  cases hp with
  | leaves he => exact h.leaves hs he
  | @fails b a f he hr =>
    have ht := h.settles he [] (by simp) none (.error f) [] rfl
    simpa using ht
  | succeeds he hr hb hn =>
    subst hn
    exact h.settles he _ (fun name hn => (mem_newNames.1 hn).2) _ _ _ (ofLoad_registered _ _)
  | @succeedsLate b a loaded he hr hb =>
    have ht := h.settles he [] (by simp) none (.ok loaded) _ (ofLoad_notStarted
      ((l.language.includes loaded.document).filter (· ∉ b.registered)))
    simpa using ht

variable (l)

theorem traced_of_reaches {s : State Doc} (h : l.Reaches names s) (hc : s.cancelled = false) :
    l.Sound names (l.ledger s) ∧ l.Traced (l.ledger s) :=
  l.reaches_induction (motive := fun b => l.Sound names b ∧ l.Traced b)
    ⟨l.sound_start names, l.traced_start names⟩
    (fun _ _ hb hp => ⟨hb.1.posts hp, hb.2.posts hb.1 hp⟩) h hc

/-- At the end of a schedule the loads of all registered names are complete. -/
theorem trace_interleaves {s : State Doc} (h : l.Ends names s) (hc : s.cancelled = false) :
    Interleaves s.registered l.trace (s.events.filter LoadEvent.ofLoad) := by
  obtain ⟨hs, tagged, hmap, hreg, -, hsettled⟩ := l.traced_of_reaches h.1 hc
  have hall : ∀ name ∈ s.registered, ownEntries tagged name = l.trace name := by
    intro name hn
    obtain ⟨r, hr, rfl⟩ := List.mem_map.1
      ((hs.settled_perm (l.ledger_pending h.2)).mem_iff.2 hn)
    exact hsettled r hr
  exact ⟨tagged, hmap, hreg, hall⟩

theorem filterMap_ofLoad {α : Type} (f : LoadEvent → Option α)
    (hf : ∀ e, e.ofLoad = false → f e = none) (es : List LoadEvent) :
    (es.filter LoadEvent.ofLoad).filterMap f = es.filterMap f := by
  induction es with
  | nil => rfl
  | cons e es ih =>
    cases he : e.ofLoad with
    | true => rw [List.filter_cons_of_pos he, List.filterMap_cons, List.filterMap_cons, ih]
    | false => rw [List.filter_cons_of_neg (by simp [he]), ih, List.filterMap_cons_none (hf e he)]

/-- The reads of the events are made up of all that is read for each of the names alone, and what is
handed to the parser of all that is handed to it for each of them alone. -/
def LoadsOnce (names : List Text) (es : List LoadEvent) : Prop :=
  Interleaves names (l.reader.probes · l.roots) (es.filterMap LoadEvent.read?) ∧
    Interleaves names (l.reader.handed l.roots) (es.filterMap LoadEvent.parsing?)

theorem loadsOnce_of_ends {s : State Doc} (h : l.Ends names s) (hc : s.cancelled = false) :
    l.LoadsOnce s.registered s.events := by
  have ht := l.trace_interleaves h hc
  have hread := ht.filterMap LoadEvent.read?
  have hparse := ht.filterMap LoadEvent.parsing?
  rw [filterMap_ofLoad _ fun e => LoadEvent.read?_of_not_ofLoad] at hread
  rw [filterMap_ofLoad _ fun e => LoadEvent.parsing?_of_not_ofLoad] at hparse
  simp only [trace, loadUnit_reads] at hread
  simp only [trace, loadUnit_handed] at hparse
  exact ⟨hread, hparse⟩

theorem LoadsOnce.complete {es : List LoadEvent} (h : l.LoadsOnce names es) (count : Nat) :
    l.LoadsOnce names (es ++ [.complete count]) := by
  have hread : (es ++ [LoadEvent.complete count]).filterMap LoadEvent.read? =
      es.filterMap LoadEvent.read? := by simp [LoadEvent.read?]
  have hparse : (es ++ [LoadEvent.complete count]).filterMap LoadEvent.parsing? =
      es.filterMap LoadEvent.parsing? := by simp [LoadEvent.parsing?]
  rw [LoadsOnce, hread, hparse]
  exact h

theorem loadClosure_loadsOnce (h : (l.loadClosure names).1 ≠ .cancelled) :
    l.LoadsOnce (l.run (l.start names)).registered (l.loadClosure names).2 := by
  have hc := l.cancelled_of_ne h
  have hl := l.loadsOnce_of_ends (l.run_ends names) hc
  rw [loadClosure, hc, if_neg Bool.false_ne_true]
  split
  · exact hl
  · exact hl.complete _ _

/-- No schedule goes on for ever, and the run of a loader is one. However a schedule ends, unless it
is cancelled, every registered name has been loaded once and nothing else was read or handed to the
parser; so it is in the events that a closure leaves. -/
theorem schedule_interleaves (names : List Text) :
    (WellFounded fun s' s : State Doc => l.Moves s s') ∧
    l.Ends names (l.run (l.start names)) ∧
    (∀ s, l.Ends names s → s.cancelled = false →
      s.registered.Nodup ∧ l.LoadsOnce s.registered s.events) ∧
    ((l.loadClosure names).1 ≠ .cancelled →
      l.LoadsOnce (l.run (l.start names)).registered (l.loadClosure names).2) := by
  have hends : ∀ s, l.Ends names s → s.cancelled = false →
      s.registered.Nodup ∧ l.LoadsOnce s.registered s.events := by
    intro s h hc
    exact ⟨(l.sound_of_reaches h.1 hc).nodup, l.loadsOnce_of_ends h hc⟩
  exact ⟨l.moves_wellFounded, l.run_ends names, hends, l.loadClosure_loadsOnce⟩

/-- Two roots, below which one file includes another one that breaks and a third one that does not;
the first root has a directory in place of the first file. -/
def twoRoots : Loader Text where
  reader := .ofFiles
    [("q/a.ice".toList, .unreadable .isDirectory), ("r/a.ice".toList, .text ['b', 'c']),
      ("q/b.ice".toList, .broken (.ofValue [])), ("r/c.ice".toList, .text ['d'])]
  language := letters
  roots := [['q'], ['r']]

theorem schedule_interleaves_failing :
    twoRoots.Ends [['a']] (twoRoots.run (twoRoots.start [['a']])) ∧
    (twoRoots.run (twoRoots.start [['a']])).cancelled = false ∧
    Interleaves [['a'], ['b'], ['c']] (twoRoots.reader.probes · [['q'], ['r']])
      [("q/a.ice".toList, .unreadable .isDirectory), ("r/a.ice".toList, .text ['b', 'c']),
        ("q/b.ice".toList, .broken (.ofValue [])), ("q/c.ice".toList, .unreadable .notFound),
        ("r/c.ice".toList, .text ['d'])] := by
  obtain ⟨-, hends, hall, -⟩ := twoRoots.schedule_interleaves [['a']]
  have hc : (twoRoots.run (twoRoots.start [['a']])).cancelled = false :=
    twoRoots.cancelled_of_ne (twoRoots.loadClosure_ne_cancelled rfl _)
  obtain ⟨-, hreads, -⟩ := hall _ hends hc
  have hr : twoRoots.run (twoRoots.start [['a']]) =
      twoRoots.runFor 15 (twoRoots.start [['a']]) := twoRoots.run_eq_runFor (by decide)
  rw [hr] at hreads
  exact ⟨hends, hc, hreads⟩

end Loader

end SliceIdl
