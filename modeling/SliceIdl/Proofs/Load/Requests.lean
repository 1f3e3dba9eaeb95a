import SliceIdl.Proofs.Load.WindingUp

/-!
# Who asked for a name

A name is registered for the unit that includes it first, and the event that it leaves tells which
unit that is. A unit asks for its includes only once, when it settles. So in every schedule in which
no unit fails, the names that were registered for a unit stand together on register, in the order of
its includes, and the initial names stand in front of all others.
-/

set_option autoImplicit false

namespace SliceIdl
open Closure

variable {Doc : Type}

def LoadEvent.requestedFor? (origin : Option Text) : LoadEvent → Option Text
  | registered name includedFrom => if includedFrom = origin then some name else none
  | _ => none

def requestedFor (origin : Option Text) (es : List LoadEvent) : List Text :=
  es.filterMap (LoadEvent.requestedFor? origin)

theorem LoadEvent.requestedFor?_of_ofLoad {e : LoadEvent} (h : e.ofLoad = true)
    (origin : Option Text) : e.requestedFor? origin = none := by
  cases e with
  | read | unreadable | parsing => rfl
  | registered | notStarted | complete => cases h

section
variable (origin : Option Text) (es es' : List LoadEvent) (new : List Text)

theorem requestedFor_append :
    requestedFor origin (es ++ es') = requestedFor origin es ++ requestedFor origin es' :=
  List.filterMap_append

theorem requestedFor_registered :
    requestedFor origin (new.map (.registered · origin)) = new := by
  rw [requestedFor, List.filterMap_map]
  have hsome : LoadEvent.requestedFor? origin ∘ (LoadEvent.registered · origin) = some := by
    funext name
    exact if_pos rfl
  rw [hsome, List.filterMap_some]

variable {origin} in
theorem requestedFor_registered_other {other : Option Text} (h : other ≠ origin) :
    requestedFor origin (new.map (.registered · other)) = [] := by
  rw [requestedFor, List.filterMap_map]
  exact List.filterMap_eq_nil_iff.2 fun _ _ => if_neg h

end

namespace Loader

variable {l : Loader Doc} {names : List Text} {b : Ledger Doc} {a : Account Doc}

variable (l names) in
/-- The register, group by group. -/
structure Grouped (b : Ledger Doc) : Prop where
  initial : newNames [] names <+: b.registered
  unsettled : ∀ name, (∀ r ∈ b.settled, r.1 ≠ name) → requestedFor (some name) b.events = []
  settled : ¬ b.failed → ∀ name loaded, (name, .ok loaded) ∈ b.settled → ∃ earlier later,
    b.registered = earlier ++ requestedFor (some name) b.events ++ later ∧
    requestedFor (some name) b.events = newNames earlier (l.language.includes loaded.document)

theorem grouped_start : l.Grouped names (l.startLedger names) where
  initial := List.prefix_rfl
  unsettled := fun name _ => requestedFor_registered_other _ (by simp)
  settled := fun _ _ _ h => absurd h List.not_mem_nil

theorem Grouped.leaves (h : l.Grouped names (b.opening a)) {e : LoadEvent} (he : e.ofLoad = true)
    (es : List LoadEvent) :
    l.Grouped names { b.opening { a with events := es } with events := b.events ++ [e] } := by
  have hsame (origin : Option Text) :
      requestedFor origin (b.events ++ [e]) = requestedFor origin b.events := by
    have hnone : requestedFor origin [e] = [] :=
      List.filterMap_cons_none (LoadEvent.requestedFor?_of_ofLoad he origin)
    rw [requestedFor_append, hnone, List.append_nil]
  refine ⟨h.initial, fun name hn => ?_, fun hf name loaded hmem => ?_⟩
  · exact (hsame _).trans (h.unsettled name hn)
  · have hgroup := h.settled hf name loaded hmem
    simpa only [Ledger.opening, hsame] using hgroup

theorem Grouped.settles_failed (h : l.Grouped names (b.opening a))
    {b' : Ledger Doc} (hr : b'.registered = b.registered)
    (hs : b.settled ⊆ b'.settled) (he : ∀ origin, requestedFor origin b'.events =
      requestedFor origin b.events) (hb : b'.failed) : l.Grouped names b' where
  initial := hr ▸ h.initial
  unsettled := fun name hn => (he _).trans (h.unsettled name fun r hmem => hn r (hs hmem))
  settled := fun hn => absurd hb hn

theorem Grouped.succeeds (hs : l.Sound names (b.opening a)) (h : l.Grouped names (b.opening a))
    {loaded : LoadedUnit Doc} (hb : ¬ b.failed) :
    l.Grouped names
      { registered := b.registered ++ newNames b.registered (l.language.includes loaded.document)
        pending := b.pending + ↑((newNames b.registered (l.language.includes loaded.document)).map
          (l.account · (some a.name) l.roots))
        settled := b.settled ++ [(a.name, .ok loaded)]
        events := b.events ++ (newNames b.registered (l.language.includes loaded.document)).map
          (.registered · (some a.name)) } := by
  obtain ⟨-, -, hunsettled⟩ := hs.name_unique
  have hother {name : Text} (hn : a.name ≠ name) : requestedFor (some name)
      (b.events ++ (newNames b.registered (l.language.includes loaded.document)).map
        (.registered · (some a.name))) = requestedFor (some name) b.events := by
    rw [requestedFor_append, requestedFor_registered_other _ (by simpa using hn), List.append_nil]
  refine ⟨h.initial.trans (List.prefix_append ..), fun name hn => ?_, fun _ name loaded' hmem => ?_⟩
  · rw [List.forall_mem_append, List.forall_mem_singleton] at hn
    exact (hother hn.2).trans (h.unsettled name hn.1)
  · rcases List.mem_append.1 hmem with hold | hnew
    · obtain ⟨earlier, later, hr, hg⟩ := h.settled hb name loaded' hold
      rw [hother (hunsettled _ hold).symm]
      exact ⟨earlier, later ++ _, by rw [← List.append_assoc]; exact congrArg (· ++ _) hr, hg⟩
    · obtain ⟨rfl, rfl⟩ : name = a.name ∧ loaded' = loaded := by simpa using hnew
      have hnone : requestedFor (some a.name) b.events = [] := h.unsettled a.name hunsettled
      rw [requestedFor_append, hnone, List.nil_append, requestedFor_registered]
      exact ⟨b.registered, [], (List.append_nil _).symm, rfl⟩

theorem Grouped.posts {b b' : Ledger Doc} (hs : l.Sound names b) (ht : l.Traced b)
    (h : l.Grouped names b) (hp : l.Posts b b') : l.Grouped names b' := by
  cases hp with
  | leaves he => exact h.leaves (ht.ofLoad he) _
  | @fails b a f he hr =>
    have hfailed : Ledger.failed { b with settled := b.settled ++ [(a.name, .error f)] } :=
      ⟨a.name, f, by simp⟩
    exact h.settles_failed rfl (List.subset_append_left ..) (fun _ => rfl) hfailed
  | succeeds he hr hb hn =>
    subst hn
    exact h.succeeds hs hb
  | @succeedsLate b a loaded he hr hb =>
    obtain ⟨name, f, hf⟩ := hb
    have hnone (origin : Option Text) (missed : List Text) :
        requestedFor origin (missed.map .notStarted) = [] := by
      rw [requestedFor, List.filterMap_map]
      exact List.filterMap_eq_nil_iff.2 fun _ _ => rfl
    refine h.settles_failed rfl (List.subset_append_left ..) (fun origin => ?_)
      ⟨name, f, List.mem_append_left _ hf⟩
    rw [requestedFor_append, hnone, List.append_nil]

theorem grouped_of_reaches {s : State Doc} (h : l.Reaches names s) (hc : s.cancelled = false) :
    l.Grouped names (l.ledger s) := by
  have hall := l.reaches_induction
    (motive := fun b => (l.Sound names b ∧ l.Traced b) ∧ l.Grouped names b)
    ⟨⟨l.sound_start names, l.traced_start names⟩, grouped_start⟩
    (fun _ _ hb hp => ⟨⟨hb.1.1.posts hp, hb.1.2.posts hb.1.1 hp⟩, hb.2.posts hb.1.1 hb.1.2 hp⟩) h hc
  exact hall.2

end Loader

end SliceIdl
