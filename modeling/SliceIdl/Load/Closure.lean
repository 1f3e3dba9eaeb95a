import SliceIdl.Load.Weight

/-!
# Loading a closure

A run goes on until no job is left. It has cancelled the load, or the first failure is the answer,
or all units are, in the order in which their names were registered.
-/

set_option autoImplicit false

namespace SliceIdl
open Closure

namespace Loader

variable {Doc : Type} (l : Loader Doc)

def run (s : State Doc) : State Doc :=
  match h : l.step s with
  | none => s
  | some s' =>
    have := l.step_weight h
    run s'
termination_by l.weight s

end Loader

inductive ClosureResult (Doc : Type) where
  /-- All units, in the order in which their names were registered. -/
  | loaded (units : List (Text × LoadedUnit Doc))
  | failed (f : LoadFailure)
  | cancelled

namespace Closure.State

variable {Doc : Type}

def unit? (s : State Doc) (name : Text) : Option (LoadedUnit Doc) :=
  match s.settled.lookup name with
  | some (.ok loaded) => some loaded
  | _ => none

def units (s : State Doc) : List (Text × LoadedUnit Doc) :=
  s.registered.filterMap fun name => (s.unit? name).map fun loaded => (name, loaded)

end Closure.State

namespace Loader

variable {Doc : Type} (l : Loader Doc)

/-- The units of the names and of all that they include, and what happened on the way. -/
def loadClosure (names : List Text) : ClosureResult Doc × List LoadEvent :=
  let s := l.run (l.start names)
  if s.cancelled then (.cancelled, s.events)
  else
    match s.failure? with
    | some f => (.failed f, s.events)
    | none => (.loaded s.units, s.events ++ [.complete s.units.length])

end Loader

end SliceIdl
