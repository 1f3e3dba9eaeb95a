import SliceIdl.Load.Unit

/-!
# Jobs

The names asked for and everything that they include are loaded, each name once. Work is done by
jobs that run one at a time, first in, first out. A name is registered before its first job is
queued. An attempt reads the file below one root; the outcome is looked at two jobs later, when the
next root is tried at once, the unit fails, or it is parsed and its includes are registered. Once a
unit has failed no further name is registered, but what is registered goes on; the first failure is
the answer.

A run may be cancelled when a given path is read. It ends when its watcher wakes up to that: what
was queued before that still happens, and nothing of what was queued behind it. The watcher waits
for the names that had not settled when it last looked, and each of them that settles gives it
notice by a job of its own. It wakes up for the last notice, to look again, or for the cancellation,
whichever comes first. Where no path can cancel a run there is nothing to watch.
-/

set_option autoImplicit false

namespace SliceIdl

namespace Closure

/-- A file that has been read, and the roots still to be tried if it is not readable. -/
structure Probe where
  name : Text
  includedFrom : Option Text
  root : Text
  otherRoots : List Text
  deriving DecidableEq, Repr

def Probe.path (p : Probe) : Text :=
  probePath p.root p.name

inductive Job where
  | attempt (name : Text) (includedFrom : Option Text)
  | hop (p : Probe)
  | resume (p : Probe)
  /-- Tells the watcher that a name has settled. -/
  | notice (name : Text)
  | wake
  deriving DecidableEq, Repr

structure State (Doc : Type) where
  /-- In the order of registration. -/
  registered : List Text
  queue : List Job
  /-- How the units came out, in the order in which they did. -/
  settled : List (Text × Except LoadFailure (LoadedUnit Doc))
  /-- The names of which the watcher has had no notice yet. -/
  watched : List Text
  waking : Bool
  cancelled : Bool
  events : List LoadEvent

variable {Doc : Type}

namespace State

def empty : State Doc := ⟨[], [], [], [], false, false, []⟩

def failure? (s : State Doc) : Option LoadFailure :=
  s.settled.findSome? fun r => match r.2 with
    | .error f => some f
    | .ok _ => none

def note (s : State Doc) (e : LoadEvent) : State Doc :=
  { s with events := s.events ++ [e] }

def enqueue (s : State Doc) (job : Job) : State Doc :=
  { s with queue := s.queue ++ [job] }

def isSettled (s : State Doc) (name : Text) : Bool :=
  s.settled.any fun r => r.1 == name

def settle (s : State Doc) (name : Text) (result : Except LoadFailure (LoadedUnit Doc)) :
    State Doc :=
  let s := { s with settled := s.settled ++ [(name, result)] }
  if name ∈ s.watched then s.enqueue (.notice name) else s

def watch (s : State Doc) : State Doc :=
  { s with watched := s.registered.filter (!s.isSettled ·), waking := false }

def rouse (s : State Doc) : State Doc :=
  if s.waking then s else { s.enqueue .wake with waking := true }

def notice (s : State Doc) (name : Text) : State Doc :=
  let s := { s with watched := s.watched.filter (· != name) }
  if s.watched.isEmpty then s.rouse else s

def cancel (s : State Doc) : State Doc :=
  { s.rouse with cancelled := true }

/-- Lets the watcher look around: a cancelled run is over, otherwise it goes on waiting. -/
def wake (s : State Doc) : State Doc :=
  if s.cancelled then { s with queue := [] } else s.watch

/-- Registers a name, unless it is registered already or a unit has failed. -/
def request (s : State Doc) (includedFrom : Option Text) (name : Text) : State Doc :=
  if name ∈ s.registered then s
  else if s.failure?.isSome then s.note (.notStarted name)
  else
    { s with
      registered := s.registered ++ [name]
      queue := s.queue ++ [.attempt name includedFrom]
      events := s.events ++ [.registered name includedFrom] }

def requestAll (s : State Doc) (includedFrom : Option Text) (names : List Text) : State Doc :=
  names.foldl (fun s name => s.request includedFrom name) s

end State

end Closure

open Closure

structure Loader (Doc : Type) where
  reader : Reader
  language : Language Doc
  roots : List Text
  /-- The path whose successful reading cancels the run. -/
  cancelOn : Option Text := none

namespace Loader

variable {Doc : Type} (l : Loader Doc)

def start (names : List Text) : State Doc :=
  let s := State.empty.requestAll none names
  if l.cancelOn.isSome then s.watch else s

def tryRoots (s : State Doc) (name : Text) (includedFrom : Option Text) :
    List Text → State Doc
  | [] => s.settle name (.error (.error (.notFound name includedFrom)))
  | root :: roots =>
    let p : Probe := ⟨name, includedFrom, root, roots⟩
    let outcome := l.reader.read p.path
    let s := s.note (.read p.path outcome)
    let s := if outcome.isText && l.cancelOn == some p.path then s.cancel else s
    s.enqueue (.hop p)

def resume (s : State Doc) (p : Probe) : State Doc :=
  match l.reader.read p.path with
  | .unreadable e =>
    l.tryRoots (s.note (.unreadable p.name p.root e)) p.name p.includedFrom p.otherRoots
  | .broken f => s.settle p.name (.error (.fault f))
  | .text t =>
    let s := s.note (.parsing p.name p.path)
    let result := LoadedUnit.ofText l.language p.name p.root t
    let s := match result with
      | .error _ => s
      | .ok loaded => s.requestAll (some p.name) (l.language.includes loaded.document)
    s.settle p.name result

def perform (s : State Doc) : Job → State Doc
  | .attempt name includedFrom => l.tryRoots s name includedFrom l.roots
  | .hop p => s.enqueue (.resume p)
  | .resume p => l.resume s p
  | .notice name => s.notice name
  | .wake => s.wake

def step (s : State Doc) : Option (State Doc) :=
  match s.queue with
  | [] => none
  | job :: queue => some (l.perform { s with queue } job)

end Loader

end SliceIdl
