import SliceIdl.Text.Basic

/-!
# Log records

Records have a level and come from named channels below one package name. A logger hands a record
to its handlers when the level of the record is high enough, and a handler takes it when it is high
enough for the handler too. Configuring replaces the own handler by one for a new stream and leaves
the foreign handlers alone; before that, the logger lets warnings and worse pass.
-/

set_option autoImplicit false

namespace SliceIdl

inductive Level where
  | debug
  | info
  | warning
  | error
  | critical
  deriving DecidableEq, Repr

namespace Level

def number : Level → Nat
  | debug => 10
  | info => 20
  | warning => 30
  | error => 40
  | critical => 50

def label : Level → Text
  | debug => "DEBUG".toList
  | info => "INFO".toList
  | warning => "WARNING".toList
  | error => "ERROR".toList
  | critical => "CRITICAL".toList

/-- Negative verbosity asks for errors only, two or more for everything. -/
def ofVerbosity (v : Int) : Level :=
  if v < 0 then error else if v = 0 then warning else if v = 1 then info else debug

def passes (least level : Level) : Bool :=
  least.number ≤ level.number

end Level

structure Record where
  level : Level
  /-- The channel below the package name, empty for the package itself. -/
  channel : Text
  message : Text
  deriving DecidableEq, Repr

namespace Record

def packageName : Text :=
  "slicejson".toList

def name (r : Record) : Text :=
  if r.channel.isEmpty then packageName else packageName ++ '.' :: r.channel

def consoleLine (r : Record) : Text :=
  r.level.label ++ " | ".toList ++ r.name ++ " | ".toList ++ r.message

def plainLine (r : Record) : Text :=
  r.level.label ++ ' ' :: r.name ++ ' ' :: r.message

end Record

inductive Sink where
  /-- The stream of a configuration; such a handler is an own one. -/
  | stream (index : Nat)
  | foreign (index : Nat)
  deriving DecidableEq, Repr

structure Handler where
  sink : Sink
  /-- Records of a lower level are dropped. -/
  level : Level
  deriving DecidableEq, Repr

def Handler.isOwn (h : Handler) : Bool :=
  match h.sink with
  | .stream _ => true
  | .foreign _ => false

structure Logger where
  /-- The level in force, once configured. -/
  level : Option Level
  handlers : List Handler
  /-- The text of every stream configured so far. -/
  streams : List Text
  foreign : List (List Record)
  deriving DecidableEq, Repr

namespace Logger

def fresh : Logger := ⟨none, [], [], []⟩

/-- Sets the level and puts a handler for a new stream in the place of the own one. -/
def configure (l : Logger) (verbosity : Int) : Logger where
  level := some (.ofVerbosity verbosity)
  handlers := l.handlers.filter (!·.isOwn) ++ [⟨.stream l.streams.length, .ofVerbosity verbosity⟩]
  streams := l.streams ++ [[]]
  foreign := l.foreign

def addForeign (l : Logger) : Logger where
  level := l.level
  handlers := l.handlers ++ [⟨.foreign l.foreign.length, .debug⟩]
  streams := l.streams
  foreign := l.foreign ++ [[]]

def effectiveLevel (l : Logger) : Level :=
  l.level.getD .warning

def hand (r : Record) (l : Logger) (h : Handler) : Logger :=
  if h.level.passes r.level then
    match h.sink with
    | .stream i => { l with streams := l.streams.modify i (· ++ r.consoleLine ++ ['\n']) }
    | .foreign i => { l with foreign := l.foreign.modify i (· ++ [r]) }
  else l

def log (l : Logger) (r : Record) : Logger :=
  if l.effectiveLevel.passes r.level then l.handlers.foldl (hand r) l else l

def handlerCount (l : Logger) : Nat :=
  l.handlers.length

def levelNumber (l : Logger) : Nat :=
  (l.level.map Level.number).getD 0

end Logger

end SliceIdl
