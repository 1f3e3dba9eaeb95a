import SliceIdl.Load.Closure

/-!
# The operations of a run

What each operation does to a state, case by case. Requests add the names that nobody asked for
before, in order and each of them once, or nothing but a note if a unit has failed; a run starts
with the requests for its initial names. A file that was looked at is tried below the next root,
fails its unit, or has its includes requested before its unit settles.
-/

set_option autoImplicit false

namespace SliceIdl
open Closure

variable {Doc : Type}

def newNames (known : List Text) : List Text → List Text
  | [] => []
  | name :: names =>
    if name ∈ known then newNames known names
    else name :: newNames (known ++ [name]) names

theorem mem_newNames {known names : List Text} {name : Text} :
    name ∈ newNames known names ↔ name ∈ names ∧ name ∉ known := by
  induction names generalizing known with
  | nil => simp [newNames]
  | cons first names ih =>
    rw [newNames]
    split
    · next hk =>
      rw [ih, List.mem_cons]
      constructor
      · intro h
        exact ⟨.inr h.1, h.2⟩
      · rintro ⟨rfl | hmem, hnk⟩
        · exact absurd hk hnk
        · exact ⟨hmem, hnk⟩
    · next hk =>
      simp only [List.mem_cons, ih, List.mem_append, List.not_mem_nil, or_false, not_or]
      constructor
      · rintro (rfl | ⟨hmem, hnk, -⟩)
        · exact ⟨.inl rfl, hk⟩
        · exact ⟨.inr hmem, hnk⟩
      · rintro ⟨rfl | hmem, hnk⟩
        · exact .inl rfl
        · by_cases hf : name = first
          · exact .inl hf
          · exact .inr ⟨hmem, hnk, hf⟩

theorem newNames_nodup (known names : List Text) : (newNames known names).Nodup := by
  induction names generalizing known with
  | nil => simp [newNames]
  | cons name names ih =>
    rw [newNames]
    split
    · exact ih known
    · have hn : name ∉ newNames (known ++ [name]) names := by
        intro h
        exact (mem_newNames.1 h).2 (by simp)
      exact List.nodup_cons.2 ⟨hn, ih _⟩

theorem append_newNames_nodup {known : List Text} (h : known.Nodup) (names : List Text) :
    (known ++ newNames known names).Nodup := by
  have hd : ∀ a ∈ known, ∀ b ∈ newNames known names, a ≠ b := by
    rintro a ha _ hb rfl
    exact (mem_newNames.1 hb).2 ha
  exact List.nodup_append.2 ⟨h, newNames_nodup known names, hd⟩

theorem subset_append_newNames (known names : List Text) :
    ∀ name ∈ names, name ∈ known ++ newNames known names := by
  intro name hn
  by_cases hk : name ∈ known
  · exact List.mem_append_left _ hk
  · exact List.mem_append_right _ (mem_newNames.2 ⟨hn, hk⟩)

namespace Closure.State

theorem requestAll_cons (s : State Doc) (includedFrom : Option Text) (name : Text)
    (names : List Text) : s.requestAll includedFrom (name :: names) =
      (s.request includedFrom name).requestAll includedFrom names := rfl

theorem requestAll_of_none {s : State Doc} (h : s.failure? = none) (includedFrom : Option Text)
    (names : List Text) :
    s.requestAll includedFrom names =
      { s with
        registered := s.registered ++ newNames s.registered names
        queue := s.queue ++ (newNames s.registered names).map (.attempt · includedFrom)
        events := s.events ++ (newNames s.registered names).map (.registered · includedFrom) } := by
  induction names generalizing s with
  | nil => simp [requestAll, newNames]
  | cons name names ih =>
    rw [requestAll_cons, newNames, request]
    by_cases hr : name ∈ s.registered
    · rw [if_pos hr, if_pos hr, ih h]
    · rw [if_neg hr, if_neg hr, h, if_neg (by simp), ih (by exact h)]
      simp

theorem requestAll_of_some {s : State Doc} {f : LoadFailure} (h : s.failure? = some f)
    (includedFrom : Option Text) (names : List Text) :
    s.requestAll includedFrom names =
      { s with events :=
          s.events ++ (names.filter (· ∉ s.registered)).map .notStarted } := by
  induction names generalizing s with
  | nil => simp [requestAll]
  | cons name names ih =>
    rw [requestAll_cons, request]
    by_cases hr : name ∈ s.registered
    · rw [if_pos hr, ih h]
      simp [hr]
    · rw [if_neg hr, h, if_pos (by simp), ih (by exact h),
        List.filter_cons_of_pos (by simpa using hr)]
      simp only [note, List.map_cons, List.append_assoc, List.singleton_append]
      rfl

theorem requestAll_empty (names : List Text) :
    (empty : State Doc).requestAll none names =
      { empty with
        registered := newNames [] names
        queue := (newNames [] names).map (.attempt · none)
        events := (newNames [] names).map (.registered · none) } := by
  rw [requestAll_of_none rfl]
  rfl

theorem unit?_eq_some_iff {s : State Doc} (h : (s.settled.map Prod.fst).Nodup) {name : Text}
    {loaded : LoadedUnit Doc} : s.unit? name = some loaded ↔ (name, .ok loaded) ∈ s.settled := by
  have hl : s.settled.lookup name = some (.ok loaded) ↔ (name, .ok loaded) ∈ s.settled := by
    rw [List.lookup_eq_some_iff]
    constructor
    · rintro ⟨before, after, he, -⟩
      simp [he]
    · intro hmem
      obtain ⟨before, after, he⟩ := List.append_of_mem hmem
      rw [he, List.map_append, List.map_cons, List.nodup_append] at h
      have hne : ∀ r ∈ before, name ≠ r.1 := by
        intro r hr
        exact (h.2.2 r.1 (List.mem_map_of_mem hr) name List.mem_cons_self).symm
      exact ⟨before, after, he, by simpa using hne⟩
  rw [← hl, unit?]
  split
  · next u hu => simp [hu]
  · next hu =>
    constructor
    · intro hn
      cases hn
    · intro hs
      exact absurd hs (hu loaded)

theorem mem_units {s : State Doc} {name : Text} {loaded : LoadedUnit Doc} :
    (name, loaded) ∈ s.units ↔ name ∈ s.registered ∧ s.unit? name = some loaded := by
  simp only [units, List.mem_filterMap, Option.map_eq_some_iff, Prod.mk.injEq]
  constructor
  · rintro ⟨_, hr, _, hu, rfl, rfl⟩
    exact ⟨hr, hu⟩
  · rintro ⟨hr, hu⟩
    exact ⟨name, hr, loaded, hu, rfl, rfl⟩

theorem mem_settled_of_mem_units {s : State Doc} {name : Text} {loaded : LoadedUnit Doc}
    (h : (name, loaded) ∈ s.units) : (name, .ok loaded) ∈ s.settled := by
  obtain ⟨-, hu⟩ := mem_units.1 h
  rw [unit?] at hu
  split at hu
  · next hl =>
    cases hu
    obtain ⟨before, after, he, -⟩ := List.lookup_eq_some_iff.1 hl
    simp [he]
  · cases hu

theorem units_map_fst {s : State Doc} (h : ∀ name ∈ s.registered, (s.unit? name).isSome) :
    s.units.map Prod.fst = s.registered := by
  rw [units]
  generalize s.registered = names at h
  induction names with
  | nil => rfl
  | cons name names ih =>
    obtain ⟨loaded, hl⟩ := Option.isSome_iff_exists.1 (h name List.mem_cons_self)
    rw [List.filterMap_cons, hl]
    exact congrArg (name :: ·) (ih fun n hn => h n (List.mem_cons_of_mem _ hn))

end Closure.State

namespace Loader

variable (l : Loader Doc) (s : State Doc)

theorem tryRoots_nil (name : Text) (includedFrom : Option Text) :
    l.tryRoots s name includedFrom [] =
      s.settle name (.error (.error (.notFound name includedFrom))) := rfl

theorem tryRoots_cons (h : l.cancelOn = none) (name : Text) (includedFrom : Option Text)
    (root : Text) (roots : List Text) :
    l.tryRoots s name includedFrom (root :: roots) =
      (s.note (.read (probePath root name) (l.reader.read (probePath root name)))).enqueue
        (.hop ⟨name, includedFrom, root, roots⟩) := by
  simp [tryRoots, h, Probe.path]

theorem resume_unreadable {p : Probe} {e : ReadError} (h : l.reader.read p.path = .unreadable e) :
    l.resume s p =
      l.tryRoots (s.note (.unreadable p.name p.root e)) p.name p.includedFrom p.otherRoots := by
  rw [resume, h]

theorem resume_broken {p : Probe} {f : Fault} (h : l.reader.read p.path = .broken f) :
    l.resume s p = s.settle p.name (.error (.fault f)) := by
  rw [resume, h]

theorem resume_refused {p : Probe} {t : Text} {f : LoadFailure}
    (h : l.reader.read p.path = .text t)
    (hu : LoadedUnit.ofText l.language p.name p.root t = .error f) :
    l.resume s p = (s.note (.parsing p.name p.path)).settle p.name (.error f) := by
  rw [resume, h]
  simp only [hu]

theorem resume_loaded {p : Probe} {t : Text} {loaded : LoadedUnit Doc}
    (h : l.reader.read p.path = .text t)
    (hu : LoadedUnit.ofText l.language p.name p.root t = .ok loaded) :
    l.resume s p =
      ((s.note (.parsing p.name p.path)).requestAll (some p.name)
        (l.language.includes loaded.document)).settle p.name (.ok loaded) := by
  rw [resume, h]
  simp only [hu]

end Loader

end SliceIdl
