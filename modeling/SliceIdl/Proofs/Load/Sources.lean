import SliceIdl.Load.Language
import SliceIdl.Proofs.Load.Interleaving
import SliceIdl.Proofs.Path.Naming

/-!
# Where the texts of a run come from

Each name on register has at most one text: the one below the first root that is more than just not
readable there. A run reads it once and hands it to the parser once, whatever the order of its loads
and whether it fails, is cancelled or comes to its end. Names are told apart as names: two of them
may stand for one file.
-/

set_option autoImplicit false

namespace SliceIdl
open Closure

variable {Doc : Type}

namespace LoadEvent

def readText? : LoadEvent → Option Text
  | read path (.text _) => some path
  | _ => none

def parsedPath? (e : LoadEvent) : Option Text :=
  e.parsing?.map Prod.snd

theorem readText?_of_not_ofLoad {e : LoadEvent} (h : e.ofLoad = false) : e.readText? = none := by
  cases e with
  | read | unreadable | parsing => cases h
  | registered | notStarted | complete => rfl

theorem parsedPath?_of_not_ofLoad {e : LoadEvent} (h : e.ofLoad = false) :
    e.parsedPath? = none := by
  rw [parsedPath?, parsing?_of_not_ofLoad h, Option.map_none]

end LoadEvent

/-- The first root below which a name is more than just not readable, if there is a text. -/
def Reader.supplier? (reader : Reader) (name : Text) : List Text → Option Text
  | [] => none
  | root :: roots =>
    match reader.read (probePath root name) with
    | .text _ => some root
    | .unreadable _ => supplier? reader name roots
    | .broken _ => none

theorem Reader.supplier?_mem {reader : Reader} {name root : Text} {roots : List Text}
    (h : reader.supplier? name roots = some root) : root ∈ roots := by
  induction roots with
  | nil => cases h
  | cons first roots ih =>
    rw [supplier?] at h
    split at h
    · cases h
      exact List.mem_cons_self
    · exact List.mem_cons_of_mem _ (ih h)
    · cases h

section

variable {reader : Reader} {language : Language Doc} {name : Text} {roots : List Text}

theorem loadUnit_filterMap {f : LoadEvent → Option Text}
    (hread : ∀ path outcome, outcome.isText = false → f (.read path outcome) = none)
    (hunreadable : ∀ name root e, f (.unreadable name root e) = none)
    (htext : ∀ path t, [.read path (.text t), .parsing name path].filterMap f = [path]) :
    (loadUnit reader language name none roots).1.filterMap f =
      ((reader.supplier? name roots).map (probePath · name)).toList := by
  induction roots with
  | nil => rfl
  | cons root roots ih =>
    rw [loadUnit, Reader.supplier?]
    cases hr : reader.read (probePath root name) with
    | unreadable e =>
      dsimp only
      rw [List.filterMap_cons_none (hread _ _ rfl), List.filterMap_cons_none (hunreadable ..), ih]
    | broken fault => exact List.filterMap_cons_none (hread _ _ rfl)
    | text t => exact htext _ t

theorem loadUnit_readText :
    (loadUnit reader language name none roots).1.filterMap LoadEvent.readText? =
      ((reader.supplier? name roots).map (probePath · name)).toList := by
  refine loadUnit_filterMap (fun path outcome h => ?_) (fun _ _ _ => rfl) fun _ _ => rfl
  cases outcome with
  | text t => cases h
  | unreadable e => rfl
  | broken f => rfl

theorem loadUnit_parsedPath :
    (loadUnit reader language name none roots).1.filterMap LoadEvent.parsedPath? =
      ((reader.supplier? name roots).map (probePath · name)).toList :=
  loadUnit_filterMap (fun _ _ _ => rfl) (fun _ _ _ => rfl) fun _ _ => rfl

theorem loadUnit_supplier {loaded : LoadedUnit Doc}
    (h : (loadUnit reader language name none roots).2 = .ok loaded) :
    reader.supplier? name roots = some loaded.root := by
  obtain ⟨⟨before, after, rfl, hbefore⟩, hread, -⟩ := loadUnit_first h
  clear h
  induction before with
  | nil => simp [Reader.supplier?, hread]
  | cons root before ih =>
    obtain ⟨e, he⟩ := hbefore root List.mem_cons_self
    rw [List.cons_append, Reader.supplier?, he]
    exact ih fun r hr => hbefore r (List.mem_cons_of_mem _ hr)

end

/-- Every entry of the whole is what some name of the list owns, and no name owns two of them. -/
def OneEach {α : Type} (names : List Text) (own : Text → Option α) (whole : List α) : Prop :=
  ∃ owners : List Text, owners.Nodup ∧ owners ⊆ names ∧ owners.map own = whole.map some

theorem OneEach.nodup {α : Type} {names : List Text} {own : Text → Option α} {whole : List α}
    (h : OneEach names own whole)
    (hinj : ∀ n ∈ names, ∀ m ∈ names, ∀ x, own n = some x → own m = some x → n = m) :
    whole.Nodup := by
  obtain ⟨owners, hnodup, hsub, hmap⟩ := h
  have hsome : ∀ n ∈ owners, ∃ x, own n = some x := by
    intro n hn
    obtain ⟨x, -, hx⟩ := List.mem_map.1 (hmap ▸ List.mem_map_of_mem (f := own) hn)
    exact ⟨x, hx.symm⟩
  have hown : (owners.map own).Nodup := by
    apply List.Nodup.map_on _ hnodup
    intro n hn m hm he
    obtain ⟨x, hx⟩ := hsome n hn
    exact hinj n (hsub hn) m (hsub hm) x hx (he ▸ hx)
  exact List.Nodup.of_map _ (hmap ▸ hown)

theorem OneEach.map {α β : Type} {names : List Text} {own : Text → Option α} {whole : List α}
    (h : OneEach names own whole) (f : α → β) :
    OneEach names (fun n => (own n).map f) (whole.map f) := by
  obtain ⟨owners, hnodup, hsub, hmap⟩ := h
  refine ⟨owners, hnodup, hsub, ?_⟩
  simpa [List.map_map, Function.comp_def] using congrArg (List.map (Option.map f)) hmap

theorem Interleaves.oneEach {α : Type} {names : List Text} {own : Text → Option α}
    {parts : Text → List α} {whole : List α} (h : Interleaves names parts whole)
    (hown : ∀ n ∈ names, parts n <+: (own n).toList) : OneEach names own whole := by
  obtain ⟨tagged, rfl, hnames, hparts⟩ := h
  have hpart : ∀ n ∈ names, ownEntries tagged n <+: (own n).toList :=
    fun n hn => (hparts n hn) ▸ hown n hn
  refine ⟨tagged.map Prod.fst, ?_, ?_, ?_⟩
  · rw [List.nodup_iff_count_le_one]
    intro n
    by_cases hn : n ∈ tagged.map Prod.fst
    · obtain ⟨x, hx, rfl⟩ := List.mem_map.1 hn
      have hcount : (tagged.map Prod.fst).count x.1 = (ownEntries tagged x.1).length := by
        simp [ownEntries, List.count, List.countP_map, ← List.countP_eq_length_filter,
          Function.comp_def, beq_eq_decide]
      have hlen := (hpart x.1 (hnames x hx)).length_le
      rw [hcount]
      exact hlen.trans (by cases own x.1 <;> simp)
    · simp [List.count_eq_zero_of_not_mem hn]
  · intro n hn
    obtain ⟨x, hx, rfl⟩ := List.mem_map.1 hn
    exact hnames x hx
  · rw [List.map_map, List.map_map]
    apply List.map_congr_left
    intro x hx
    have hmem : x.2 ∈ ownEntries tagged x.1 :=
      List.mem_map_of_mem (List.mem_filter.2 ⟨hx, by simp⟩)
    exact Option.mem_toList.1 ((hpart x.1 (hnames x hx)).subset hmem)

namespace Loader

variable (l : Loader Doc)

/-- The path that the text of a name is read from, if there is one. -/
def source? (name : Text) : Option Text :=
  (l.reader.supplier? name l.roots).map (probePath · name)

/-- Every text is read and handed to the parser for a name of its own. -/
def TextsOnce (names : List Text) (es : List LoadEvent) : Prop :=
  OneEach names l.source? (es.filterMap LoadEvent.readText?) ∧
    OneEach names l.source? (es.filterMap LoadEvent.parsedPath?)

variable {l} {names : List Text} {b : Ledger Doc}

theorem Sound.own_prefix (hs : l.Sound names b) {tagged : List (Text × LoadEvent)}
    (hpending : ∀ a ∈ b.pending, ownEntries tagged a.name ++ a.events = l.trace a.name)
    (hsettled : ∀ r ∈ b.settled, ownEntries tagged r.1 = l.trace r.1) {n : Text}
    (hn : n ∈ b.registered) : ownEntries tagged n <+: l.trace n := by
  rw [← Multiset.mem_coe, ← hs.named, Multiset.mem_add] at hn
  rcases hn with hflight | hdone
  · obtain ⟨a, ha, rfl⟩ := Multiset.mem_map.1 hflight
    exact ⟨a.events, hpending a ha⟩
  · obtain ⟨r, hr, rfl⟩ := List.mem_map.1 (Multiset.mem_coe.1 hdone)
    exact (hsettled r hr) ▸ List.prefix_rfl

theorem Traced.interleaves (hs : l.Sound names b) (h : l.Traced b) :
    ∃ parts : Text → List LoadEvent,
      Interleaves b.registered parts (b.events.filter LoadEvent.ofLoad) ∧
      ∀ n ∈ b.registered, parts n <+: l.trace n := by
  obtain ⟨tagged, hmap, hreg, hpending, hsettled⟩ := h
  exact ⟨ownEntries tagged, ⟨tagged, hmap, hreg, fun _ _ => rfl⟩,
    fun n hn => hs.own_prefix hpending hsettled hn⟩

theorem Traced.oneEach (hs : l.Sound names b) (h : l.Traced b) {f : LoadEvent → Option Text}
    (hf : ∀ e, e.ofLoad = false → f e = none)
    (hown : ∀ name, (l.trace name).filterMap f = (l.source? name).toList) :
    OneEach b.registered l.source? (b.events.filterMap f) := by
  obtain ⟨parts, hparts, hleft⟩ := h.interleaves hs
  have hkept := hparts.filterMap f
  rw [filterMap_ofLoad f hf] at hkept
  refine hkept.oneEach fun n hn => ?_
  rw [← hown]
  exact (hleft n hn).filterMap f

variable (l)

/-- The names on register and the events of every state of a schedule are those of a ledger that is
sound and whose loads can be told apart, also when the run is cancelled. -/
theorem reaches_traced {s : State Doc} (h : l.Reaches names s) :
    ∃ b, l.Sound names b ∧ l.Traced b ∧ b.registered = s.registered ∧ b.events = s.events := by
  obtain ⟨b, hposts, hreg, hev, -⟩ := l.reaches_ledger h
  suffices hb : l.Sound names b ∧ l.Traced b from ⟨b, hb.1, hb.2, hreg, hev⟩
  clear hreg hev
  induction hposts with
  | refl => exact ⟨l.sound_start names, l.traced_start names⟩
  | tail _ hp ih => exact ⟨ih.1.posts hp, ih.2.posts ih.1 hp⟩

theorem reaches_textsOnce {s : State Doc} (h : l.Reaches names s) :
    s.registered.Nodup ∧ l.TextsOnce s.registered s.events := by
  obtain ⟨b, hs, ht, hreg, hev⟩ := l.reaches_traced h
  rw [← hreg, ← hev]
  exact ⟨hs.nodup, ht.oneEach hs (fun e => LoadEvent.readText?_of_not_ofLoad) fun _ =>
    loadUnit_readText, ht.oneEach hs (fun e => LoadEvent.parsedPath?_of_not_ofLoad) fun _ =>
    loadUnit_parsedPath⟩

theorem loadClosure_filterMap {α : Type} (names : List Text) {f : LoadEvent → Option α}
    (hf : ∀ e, e.ofLoad = false → f e = none) :
    (l.loadClosure names).2.filterMap f = (l.run (l.start names)).events.filterMap f := by
  rw [loadClosure]
  split
  · rfl
  · split
    · rfl
    · rw [List.filterMap_append, List.filterMap_cons_none (hf (.complete _) rfl),
        List.filterMap_nil, List.append_nil]

theorem loadClosure_readText (names : List Text) :
    (l.loadClosure names).2.filterMap LoadEvent.readText? =
      (l.run (l.start names)).events.filterMap LoadEvent.readText? :=
  l.loadClosure_filterMap names fun _ => LoadEvent.readText?_of_not_ofLoad

theorem loadClosure_textsOnce (names : List Text) :
    l.TextsOnce (l.run (l.start names)).registered (l.loadClosure names).2 := by
  rw [TextsOnce, loadClosure_readText,
    l.loadClosure_filterMap names fun _ => LoadEvent.parsedPath?_of_not_ofLoad]
  exact (l.reaches_textsOnce (l.run_ends names).1).2

end Loader

end SliceIdl
