import Mathlib.Algebra.Order.Group.Multiset
import SliceIdl.Proofs.Load.Watcher

/-!
# The ledger of a run

What counts in a run, whatever the order of its jobs: the names on register, an account for each
load in flight, the units that have settled and the events so far. An account says which events its
load has still to leave and how its unit will come out, both as if the unit was loaded alone. A job
of a run posts to the ledger in one of four ways: a load leaves its next event, or it has none left
and its unit settles, with its includes registered if no unit has failed.
-/

set_option autoImplicit false

namespace SliceIdl
open Closure

variable {Doc : Type}

/-- A load in flight: the events that it has still to leave, and how its unit will come out. -/
structure Account (Doc : Type) where
  name : Text
  includedFrom : Option Text
  events : List LoadEvent
  result : Except LoadFailure (LoadedUnit Doc)

structure Ledger (Doc : Type) where
  registered : List Text
  pending : Multiset (Account Doc)
  settled : List (Text × Except LoadFailure (LoadedUnit Doc))
  events : List LoadEvent

namespace Ledger

def opening (b : Ledger Doc) (a : Account Doc) : Ledger Doc :=
  { b with pending := a ::ₘ b.pending }

def failed (b : Ledger Doc) : Prop :=
  ∃ name f, (name, .error f) ∈ b.settled

end Ledger

namespace Loader

variable (l : Loader Doc)

/-- The account of a load that has the given roots before it. -/
def account (name : Text) (includedFrom : Option Text) (roots : List Text) : Account Doc where
  name := name
  includedFrom := includedFrom
  events := (loadUnit l.reader l.language name includedFrom roots).1
  result := (loadUnit l.reader l.language name includedFrom roots).2

def accountAfter (p : Probe) : Account Doc :=
  match l.reader.read p.path with
  | .unreadable e =>
    let a := l.account p.name p.includedFrom p.otherRoots
    { a with events := .unreadable p.name p.root e :: a.events }
  | .broken f => ⟨p.name, p.includedFrom, [], .error (.fault f)⟩
  | .text t =>
    ⟨p.name, p.includedFrom, [.parsing p.name p.path],
      LoadedUnit.ofText l.language p.name p.root t⟩

theorem account_cons (name : Text) (includedFrom : Option Text) (root : Text) (roots : List Text) :
    l.account name includedFrom (root :: roots) =
      { l.accountAfter ⟨name, includedFrom, root, roots⟩ with
        events := .read (probePath root name) (l.reader.read (probePath root name)) ::
          (l.accountAfter ⟨name, includedFrom, root, roots⟩).events } := by
  cases h : l.reader.read (probePath root name) <;>
    simp [account, accountAfter, loadUnit, Probe.path, h]

def account? : Job → Option (Account Doc)
  | .attempt name includedFrom => some (l.account name includedFrom l.roots)
  | .hop p | .resume p => some (l.accountAfter p)
  | .notice _ | .wake => none

def ledger (s : State Doc) : Ledger Doc where
  registered := s.registered
  pending := s.queue.filterMap l.account?
  settled := s.settled
  events := s.events

def startLedger (names : List Text) : Ledger Doc where
  registered := newNames [] names
  pending := (newNames [] names).map (l.account · none l.roots)
  settled := []
  events := (newNames [] names).map (.registered · none)

/-- The four ways of posting to a ledger. -/
inductive Posts : Ledger Doc → Ledger Doc → Prop
  | leaves {b : Ledger Doc} {a : Account Doc} {e : LoadEvent} {es : List LoadEvent}
      (he : a.events = e :: es) :
      Posts (b.opening a) { b.opening { a with events := es } with events := b.events ++ [e] }
  | fails {b : Ledger Doc} {a : Account Doc} {f : LoadFailure} (he : a.events = [])
      (hr : a.result = .error f) :
      Posts (b.opening a) { b with settled := b.settled ++ [(a.name, .error f)] }
  | succeeds {b : Ledger Doc} {a : Account Doc} {loaded : LoadedUnit Doc} {new : List Text}
      (he : a.events = []) (hr : a.result = .ok loaded) (hb : ¬ b.failed)
      (hn : new = newNames b.registered (l.language.includes loaded.document)) :
      Posts (b.opening a)
        { registered := b.registered ++ new
          pending := b.pending + ↑(new.map (l.account · (some a.name) l.roots))
          settled := b.settled ++ [(a.name, .ok loaded)]
          events := b.events ++ new.map (.registered · (some a.name)) }
  | succeedsLate {b : Ledger Doc} {a : Account Doc} {loaded : LoadedUnit Doc} (he : a.events = [])
      (hr : a.result = .ok loaded) (hb : b.failed) :
      Posts (b.opening a)
        { b with
          settled := b.settled ++ [(a.name, .ok loaded)]
          events := b.events ++
            ((l.language.includes loaded.document).filter (· ∉ b.registered)).map .notStarted }

end Loader

namespace Loader

variable (l : Loader Doc) (s : State Doc)

theorem ledger_enqueue {job : Job} {a : Account Doc} (h : l.account? job = some a) :
    l.ledger (s.enqueue job) = (l.ledger s).opening a := by
  have hp : (↑((s.queue ++ [job]).filterMap l.account?) : Multiset (Account Doc)) =
      a ::ₘ ↑(s.queue.filterMap l.account?) := by
    rw [List.filterMap_append, List.filterMap_cons, h]
    exact Multiset.coe_eq_coe.2 (List.perm_append_singleton ..)
  simp only [ledger, State.enqueue, Ledger.opening, hp]

theorem ledger_enqueue_of_none {job : Job} (h : l.account? job = none) :
    l.ledger (s.enqueue job) = l.ledger s := by
  simp [ledger, State.enqueue, h]

theorem ledger_settle (name : Text) (result : Except LoadFailure (LoadedUnit Doc)) :
    l.ledger (s.settle name result) =
      { l.ledger s with settled := (l.ledger s).settled ++ [(name, result)] } := by
  rw [State.settle]
  dsimp only
  split
  · exact l.ledger_enqueue_of_none _ rfl
  · rfl

theorem ledger_rouse : l.ledger s.rouse = l.ledger s := by
  rw [State.rouse]
  split
  · rfl
  · exact l.ledger_enqueue_of_none s (rfl : l.account? .wake = none)

theorem ledger_notice (name : Text) : l.ledger (s.notice name) = l.ledger s := by
  rw [State.notice]
  dsimp only
  split
  · exact l.ledger_rouse _
  · rfl

theorem ledger_wake (h : s.cancelled = false) : l.ledger s.wake = l.ledger s := by
  rw [State.wake, h, if_neg (by simp)]
  rfl

theorem failed_ledger_iff : (l.ledger s).failed ↔ s.failure?.isSome := by
  rw [State.failure?, List.findSome?_isSome_iff]
  constructor
  · rintro ⟨name, f, h⟩
    exact ⟨_, h, rfl⟩
  · rintro ⟨⟨name, result⟩, h, hs⟩
    cases result with
    | error f => exact ⟨name, f, h⟩
    | ok loaded => cases hs

theorem ledger_start (names : List Text) : l.ledger (l.start names) = l.startLedger names := by
  have h : l.ledger ((State.empty : State Doc).requestAll none names) = l.startLedger names := by
    rw [State.requestAll_empty]
    simp [ledger, startLedger, State.empty, List.filterMap_map, account?, Function.comp_def]
  rw [start]
  split <;> exact h

theorem ledger_requestAll_of_none (h : s.failure? = none) (includedFrom : Option Text)
    (names : List Text) :
    l.ledger (s.requestAll includedFrom names) =
      { registered := s.registered ++ newNames s.registered names
        pending := (l.ledger s).pending +
          ↑((newNames s.registered names).map (l.account · includedFrom l.roots))
        settled := s.settled
        events := s.events ++ (newNames s.registered names).map (.registered · includedFrom) } := by
  rw [State.requestAll_of_none h]
  simp [ledger, List.filterMap_append, List.filterMap_map, account?, Function.comp_def]

theorem tryRoots_posts (name : Text) (includedFrom : Option Text) (roots : List Text) :
    Relation.ReflTransGen l.Posts ((l.ledger s).opening (l.account name includedFrom roots))
      (l.ledger (l.tryRoots s name includedFrom roots)) := by
  cases roots with
  | nil =>
    rw [tryRoots_nil, ledger_settle]
    exact .single (.fails rfl rfl)
  | cons root roots =>
    have hc (s : State Doc) : l.ledger s.cancel = l.ledger s := l.ledger_rouse s
    rw [account_cons, tryRoots, l.ledger_enqueue _ rfl]
    apply Relation.ReflTransGen.single
    split
    · rw [hc]
      exact .leaves rfl
    · exact .leaves rfl

theorem resume_posts (p : Probe) :
    Relation.ReflTransGen l.Posts ((l.ledger s).opening (l.accountAfter p))
      (l.ledger (l.resume s p)) := by
  cases hr : l.reader.read p.path with
  | unreadable e =>
    rw [l.resume_unreadable s hr]
    have ha : l.accountAfter p =
        { l.account p.name p.includedFrom p.otherRoots with
          events := .unreadable p.name p.root e ::
            (l.account p.name p.includedFrom p.otherRoots).events } := by
      simp only [accountAfter, hr]
    rw [ha]
    exact .head (.leaves rfl)
      (l.tryRoots_posts (s.note (.unreadable p.name p.root e)) p.name p.includedFrom p.otherRoots)
  | broken f =>
    have ha : l.accountAfter p = ⟨p.name, p.includedFrom, [], .error (.fault f)⟩ := by
      simp only [accountAfter, hr]
    rw [l.resume_broken s hr, ledger_settle, ha]
    exact .single (.fails rfl rfl)
  | text t =>
    have ha : l.accountAfter p =
        ⟨p.name, p.includedFrom, [.parsing p.name p.path],
          LoadedUnit.ofText l.language p.name p.root t⟩ := by
      simp only [accountAfter, hr]
    let noted := s.note (.parsing p.name p.path)
    cases hu : LoadedUnit.ofText l.language p.name p.root t with
    | error f =>
      rw [l.resume_refused s hr hu, ledger_settle, ha, hu]
      exact .head (.leaves rfl) (.single (.fails (b := l.ledger noted) rfl rfl))
    | ok loaded =>
      rw [l.resume_loaded s hr hu, ledger_settle, ha, hu]
      apply Relation.ReflTransGen.head (.leaves rfl)
      apply Relation.ReflTransGen.single
      cases hf : noted.failure? with
      | none =>
        have hb : ¬ (l.ledger noted).failed := by simp [failed_ledger_iff, hf]
        rw [l.ledger_requestAll_of_none noted hf]
        exact .succeeds (b := l.ledger noted) (a := ⟨p.name, p.includedFrom, [], .ok loaded⟩)
          rfl rfl hb rfl
      | some f =>
        have hb : (l.ledger noted).failed := by simp [failed_ledger_iff, hf]
        rw [State.requestAll_of_some hf]
        exact .succeedsLate (b := l.ledger noted) (a := ⟨p.name, p.includedFrom, [], .ok loaded⟩)
          rfl rfl hb

def taking (s : State Doc) (job : Job) : Ledger Doc :=
  match l.account? job with
  | some a => (l.ledger s).opening a
  | none => l.ledger s

theorem ledger_eq_taking {before after : List Job} {job : Job}
    (h : s.queue = before ++ job :: after) :
    l.ledger s = l.taking { s with queue := before ++ after } job := by
  have hp : s.queue.Perm (job :: (before ++ after)) := h ▸ List.perm_middle
  have hm := Multiset.coe_eq_coe.2 (hp.filterMap l.account?)
  rw [List.filterMap_cons] at hm
  simp only [taking, ledger, Ledger.opening, hm]
  cases l.account? job <;> rfl

theorem perform_posts (job : Job) (hc : job = .wake → s.cancelled = false) :
    Relation.ReflTransGen l.Posts (l.taking s job) (l.ledger (l.perform s job)) := by
  cases job with
  | attempt name includedFrom => exact l.tryRoots_posts s name includedFrom l.roots
  | hop p =>
    rw [perform, l.ledger_enqueue s (rfl : l.account? (.resume p) = some (l.accountAfter p))]
    exact .refl
  | resume p => exact l.resume_posts s p
  | notice name =>
    rw [perform, ledger_notice]
    exact .refl
  | wake =>
    rw [perform, l.ledger_wake s (hc rfl)]
    exact .refl

theorem moves_cancelled {s s' : State Doc} (h : l.Moves s s') (hc : s'.cancelled = false) :
    s.cancelled = false := by
  cases h with
  | @perform before after job hq =>
    rw [← Bool.not_eq_true] at hc ⊢
    exact fun hs => hc (l.perform_cancelled (s := { s with queue := before ++ after }) hs job)

theorem reaches_posts {names : List Text} {s : State Doc} (h : l.Reaches names s)
    (hc : s.cancelled = false) :
    Relation.ReflTransGen l.Posts (l.startLedger names) (l.ledger s) := by
  induction h with
  | refl => exact (l.ledger_start names) ▸ .refl
  | tail _ hm ih =>
    have hc' := l.moves_cancelled hm hc
    cases hm with
    | perform hq =>
      apply (ih hc').trans
      rw [l.ledger_eq_taking _ hq]
      exact l.perform_posts _ _ fun _ => hc'

theorem reaches_induction {motive : Ledger Doc → Prop} {names : List Text}
    (start : motive (l.startLedger names))
    (posts : ∀ b b', motive b → l.Posts b b' → motive b') {s : State Doc}
    (h : l.Reaches names s) (hc : s.cancelled = false) : motive (l.ledger s) := by
  suffices hall : ∀ b, Relation.ReflTransGen l.Posts (l.startLedger names) b → motive b from
    hall _ (l.reaches_posts h hc)
  intro b hb
  induction hb with
  | refl => exact start
  | tail _ hp ih => exact posts _ _ ih hp

/-- Also the names on register and the events of a cancelled run are those of a ledger that comes
from postings: what is lost when it is over is the accounts of its loads in flight. -/
theorem reaches_ledger {names : List Text} {s : State Doc} (h : l.Reaches names s) :
    ∃ b, Relation.ReflTransGen l.Posts (l.startLedger names) b ∧
      b.registered = s.registered ∧ b.events = s.events ∧ (s.queue ≠ [] → b = l.ledger s) := by
  induction h with
  | refl =>
    rw [← ledger_start]
    exact ⟨_, .refl, rfl, rfl, fun _ => rfl⟩
  | @tail s _ _ hm ih =>
    obtain ⟨b, hb, -, -, hledger⟩ := ih
    cases hm with
    | @perform before after job hq =>
      rw [hledger (by simp [hq])] at hb
      by_cases hover : job = .wake ∧ s.cancelled = true
      · obtain ⟨rfl, hc⟩ := hover
        have hw : l.perform { s with queue := before ++ after } .wake = { s with queue := [] } := by
          simp [perform, State.wake, hc]
        rw [hw]
        exact ⟨l.ledger s, hb, rfl, rfl, fun hne => absurd rfl hne⟩
      · have hc : job = .wake → s.cancelled = false := by
          intro hj
          simpa [hj] using hover
        rw [l.ledger_eq_taking _ hq] at hb
        exact ⟨_, hb.trans (l.perform_posts _ job hc), rfl, rfl, fun _ => rfl⟩

end Loader

end SliceIdl
