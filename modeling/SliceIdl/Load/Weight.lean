import SliceIdl.Load.Job

/-!
# The weight of a state

Every step lowers a weight, because a name is registered only once and only finitely many names can
be included. So a run always comes to its end.
-/

set_option autoImplicit false

namespace SliceIdl
open Closure

namespace Loader

variable {Doc : Type} (l : Loader Doc)

/-- Holds every name that some readable text can include. -/
noncomputable def includable : List Text :=
  l.reader.finite.choose.flatMap fun t =>
    match l.language.parse t with
    | .ok document => l.language.includes document
    | .error _ => []

theorem mem_includable {path t name : Text} {document : Doc} (hr : l.reader.read path = .text t)
    (hp : l.language.parse t = .ok document) (hn : name ∈ l.language.includes document) :
    name ∈ l.includable := by
  have ht := l.reader.finite.choose_spec path t hr
  exact List.mem_flatMap.2 ⟨t, ht, by simpa [hp] using hn⟩

def jobWeight : Job → Nat
  | .attempt _ _ => 3 * l.roots.length + 3
  | .hop p => 3 * p.otherRoots.length + 4
  | .resume p => 3 * p.otherRoots.length + 3
  | .notice _ => 2
  | .wake => 1

def queueWeight : List Job → Nat
  | [] => 0
  | job :: queue => l.jobWeight job + queueWeight queue

noncomputable def unregistered (s : State Doc) : Nat :=
  l.includable.countP fun name => name ∉ s.registered

noncomputable def weight (s : State Doc) : Nat :=
  l.unregistered s * (3 * l.roots.length + 3) + l.queueWeight s.queue

theorem queueWeight_append (q r : List Job) :
    l.queueWeight (q ++ r) = l.queueWeight q + l.queueWeight r := by
  induction q with
  | nil => simp [queueWeight]
  | cons job q ih => simp [queueWeight, ih, Nat.add_assoc]

theorem weight_note (s : State Doc) (e : LoadEvent) : l.weight (s.note e) = l.weight s := rfl

theorem weight_enqueue (s : State Doc) (job : Job) :
    l.weight (s.enqueue job) = l.weight s + l.jobWeight job := by
  show l.unregistered s * _ + l.queueWeight (s.queue ++ [job]) = _
  rw [queueWeight_append, weight]
  simp [queueWeight, Nat.add_assoc]

theorem weight_settle (s : State Doc) (name : Text)
    (result : Except LoadFailure (LoadedUnit Doc)) :
    l.weight (s.settle name result) ≤ l.weight s + 2 := by
  rw [State.settle]
  dsimp only
  split
  · exact Nat.le_of_eq (l.weight_enqueue ..)
  · exact Nat.le_add_right ..

theorem weight_watch (s : State Doc) : l.weight s.watch = l.weight s := rfl

theorem weight_rouse (s : State Doc) : l.weight s.rouse ≤ l.weight s + 1 := by
  rw [State.rouse]
  split
  · exact Nat.le_add_right ..
  · exact Nat.le_of_eq (l.weight_enqueue s .wake)

theorem weight_notice (s : State Doc) (name : Text) :
    l.weight (s.notice name) ≤ l.weight s + 1 := by
  rw [State.notice]
  dsimp only
  split
  · exact l.weight_rouse _
  · exact Nat.le_add_right ..

theorem weight_cancel (s : State Doc) : l.weight s.cancel ≤ l.weight s + 1 :=
  l.weight_rouse s

theorem weight_wake (s : State Doc) : l.weight s.wake ≤ l.weight s := by
  rw [State.wake]
  split
  · exact Nat.le_add_right ..
  · exact Nat.le_of_eq (l.weight_watch s)

theorem unregistered_register (s : State Doc) {name : Text} (hu : name ∈ l.includable)
    (hn : name ∉ s.registered) (q : List Job) (es : List LoadEvent) :
    l.unregistered { s with registered := s.registered ++ [name], queue := q, events := es } + 1
      ≤ l.unregistered s := by
  have hsplit : l.unregistered
      { s with registered := s.registered ++ [name], queue := q, events := es } =
      ((l.includable.filter fun n => n ∉ s.registered).filter fun n => n ≠ name).length := by
    simp [unregistered, List.countP_eq_length_filter, Bool.and_comm]
  rw [hsplit, unregistered, List.countP_eq_length_filter]
  exact List.length_filter_lt_length_iff_exists.2
    ⟨name, List.mem_filter.2 ⟨hu, by simpa using hn⟩, by simp⟩

theorem weight_request (s : State Doc) (includedFrom : Option Text) {name : Text}
    (hu : name ∈ l.includable) : l.weight (s.request includedFrom name) ≤ l.weight s := by
  rw [State.request]
  split
  · exact Nat.le_refl _
  split
  · exact Nat.le_of_eq (l.weight_note ..)
  · next hn _ =>
    have hreg := l.unregistered_register s hu hn (s.queue ++ [.attempt name includedFrom])
      (s.events ++ [.registered name includedFrom])
    have hmul := Nat.mul_le_mul_right (3 * l.roots.length + 3) hreg
    simp only [weight, queueWeight_append]
    simp only [queueWeight, jobWeight]
    rw [Nat.add_mul] at hmul
    omega

theorem weight_requestAll (s : State Doc) (includedFrom : Option Text) {names : List Text}
    (hu : ∀ name ∈ names, name ∈ l.includable) :
    l.weight (s.requestAll includedFrom names) ≤ l.weight s := by
  induction names generalizing s with
  | nil => exact Nat.le_refl _
  | cons name names ih =>
    have hrest := ih (s.request includedFrom name) fun n hn => hu n (List.mem_cons_of_mem _ hn)
    exact Nat.le_trans hrest (l.weight_request s includedFrom (hu name List.mem_cons_self))

theorem weight_tryRoots (s : State Doc) (name : Text) (includedFrom : Option Text)
    (roots : List Text) :
    l.weight (l.tryRoots s name includedFrom roots) ≤ l.weight s + 3 * roots.length + 2 := by
  cases roots with
  | nil => exact l.weight_settle ..
  | cons root roots =>
    simp only [tryRoots, weight_enqueue, jobWeight, List.length_cons]
    split
    · have := l.weight_cancel
        (s.note (.read (probePath root name) (l.reader.read (probePath root name))))
      rw [weight_note] at this
      simp only [Probe.path]
      omega
    · rw [weight_note]
      omega

theorem weight_resume (s : State Doc) (p : Probe) :
    l.weight (l.resume s p) ≤ l.weight s + 3 * p.otherRoots.length + 2 := by
  rw [resume]
  split
  · next e _ =>
    have := l.weight_tryRoots (s.note (.unreadable p.name p.root e)) p.name p.includedFrom
      p.otherRoots
    rwa [weight_note] at this
  · next f _ =>
    have := l.weight_settle s p.name (.error (.fault f))
    omega
  · next t ht =>
    simp only [LoadedUnit.ofText]
    cases hp : l.language.parse t with
    | error f =>
      have := l.weight_settle (s.note (.parsing p.name p.path)) p.name
        (.error (.error (.unparsable p.name (probePath p.root p.name) f.detail f.line? f.column?)))
      rw [weight_note] at this
      dsimp only
      omega
    | ok document =>
      have hall : ∀ name ∈ l.language.includes document, name ∈ l.includable :=
        fun name hn => l.mem_includable ht hp hn
      have hreq := l.weight_requestAll (s.note (.parsing p.name p.path)) (some p.name) hall
      have := l.weight_settle ((s.note (.parsing p.name p.path)).requestAll (some p.name)
        (l.language.includes document)) p.name (.ok ⟨p.root, t, document⟩)
      rw [weight_note] at hreq
      dsimp only
      omega

theorem step_weight {s s' : State Doc} (h : l.step s = some s') : l.weight s' < l.weight s := by
  rw [step] at h
  split at h
  · simp at h
  · next job queue hq =>
    simp only [Option.some.injEq] at h
    subst h
    have hw : l.weight s = l.weight { s with queue } + l.jobWeight job := by
      simp only [weight, hq, queueWeight]
      show l.unregistered s * _ + _ = l.unregistered s * _ + _ + _
      omega
    rw [hw]
    cases job with
    | attempt name includedFrom =>
      have := l.weight_tryRoots { s with queue } name includedFrom l.roots
      simp only [perform, jobWeight]
      omega
    | hop p =>
      simp only [perform, jobWeight, weight_enqueue]
      omega
    | resume p =>
      have := l.weight_resume { s with queue } p
      simp only [perform, jobWeight]
      omega
    | notice name =>
      have := l.weight_notice { s with queue } name
      simp only [perform, jobWeight]
      omega
    | wake =>
      have := l.weight_wake { s with queue }
      simp only [perform, jobWeight]
      omega

end Loader

end SliceIdl
