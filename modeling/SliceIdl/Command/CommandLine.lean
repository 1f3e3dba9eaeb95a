import SliceIdl.Command.Word

/-!
# Command lines

What the arguments of a command ask for. The first run of values that no flag takes are the input
files; values behind that are refused. A flag that takes values takes the ones right behind it. In
one argument letters of flags without values may follow each other, and the last one may have a
value. Two hyphens attached to a flag count as giving it, but are no value.
-/

set_option autoImplicit false

namespace SliceIdl

/-- What is said about the output directory; the last word counts. -/
inductive OutDirChoice where
  | standard
  | path (p : Text)
  | noPath
  deriving DecidableEq, Repr

def OutDirChoice.ofValues : List Text → OutDirChoice
  | [] => noPath
  | p :: _ => path p

structure CommandLine where
  files : List Text := []
  roots : List Text := []
  rootsGiven : Bool := false
  excludes : List Text := []
  outDir : OutDirChoice := .standard
  builtin : Bool := true
  json : Bool := false
  verbose : Nat := 0
  quiet : Bool := false
  /-- The arguments that are neither flags nor values of anything. -/
  unrecognized : List Text := []
  deriving DecidableEq, Repr

inductive CommandStop where
  | help
  | version
  | usage (e : UsageError)
  deriving DecidableEq, Repr

/-- The flags that one argument gives. -/
structure FlagChain where
  complete : List (Flag × List Text)
  /-- The last one, if its values are in the arguments that follow. -/
  last : Option Flag
  deriving DecidableEq, Repr

namespace FlagChain

def cons (f : Flag) (c : FlagChain) : FlagChain :=
  { c with complete := (f, []) :: c.complete }

/-- The values that attached text makes: two hyphens alone are no value. -/
def attachedValues (t : Text) : List Text :=
  if t = Word.endOfFlags then [] else [t]

/-- Reads the text attached to a flag: its value, or more letters. -/
def ofAttached (f : Flag) (isShort : Bool) : Text → Except UsageError FlagChain
  | [] =>
    if f.arity = .none then .error (.uselessValue f []) else .ok ⟨[(f, [[]])], none⟩
  | c :: rest =>
    if f.arity ≠ .none then .ok ⟨[(f, attachedValues (c :: rest))], none⟩
    else if !isShort then .error (.uselessValue f (c :: rest))
    else
      match Flag.ofLetter? c with
      | none => .error (.uselessValue f (c :: rest))
      | some g =>
        match rest with
        | [] => .ok ⟨[(f, [])], some g⟩
        | d :: more => (ofAttached g true (d :: more)).map (cons f)

def ofUse (u : FlagUse) : Except UsageError FlagChain :=
  match u.attached with
  | none => .ok ⟨[], some u.flag⟩
  | some t => ofAttached u.flag u.isShort t

end FlagChain

namespace CommandLine

def take (c : CommandLine) : Flag × List Text → Except CommandStop CommandLine
  | (.help, _) => .error .help
  | (.version, _) => .error .version
  | (.rootDir, values) => .ok { c with roots := c.roots ++ values, rootsGiven := true }
  | (.exclude, values) => .ok { c with excludes := c.excludes ++ values }
  | (.outDir, values) => .ok { c with outDir := .ofValues values }
  | (.noBuiltin, _) => .ok { c with builtin := false }
  | (.json, _) => .ok { c with json := true }
  | (.verbose, _) => .ok { c with verbose := c.verbose + 1 }
  | (.quiet, _) => .ok { c with quiet := true }

def takeAll (c : CommandLine) : List (Flag × List Text) → Except CommandStop CommandLine
  | [] => .ok c
  | f :: fs =>
    match c.take f with
    | .error stop => .error stop
    | .ok c' => c'.takeAll fs

def valuesFor : Arity → List Text → Option (List Text × List Text)
  | .none, following => some ([], following)
  | .one, [] => none
  | .one, v :: rest => some ([v], rest)
  | .oneOrMore, [] => none
  | .oneOrMore, v :: rest => some (v :: rest, [])

def takeUse (c : CommandLine) (u : FlagUse) (following : List Text) :
    Except CommandStop (CommandLine × List Text) :=
  match FlagChain.ofUse u with
  | .error e => .error (.usage e)
  | .ok ⟨complete, none⟩ => (c.takeAll complete).map fun c' => (c', following)
  | .ok ⟨complete, some f⟩ =>
    match valuesFor f.arity following with
    | none => .error (.usage (.missingValue f))
    | some (values, left) => (c.takeAll (complete ++ [(f, values)])).map fun c' => (c', left)

def place (c : CommandLine) (values : List Text) : CommandLine :=
  if c.files.isEmpty then { c with files := values }
  else { c with unrecognized := c.unrecognized ++ values }

/-- Takes the values that no flag follows, and those behind the end of the flags. -/
def placeLast (c : CommandLine) (values : List Text) (behind : Option (List Text)) :
    CommandLine :=
  match behind with
  | none => c.place values
  | some ts =>
    if c.files.isEmpty && !(values ++ ts).isEmpty then c.place (values ++ ts)
    else { c with unrecognized := c.unrecognized ++ values ++ Word.endOfFlags :: ts }

abbrev Group := Word × List Text

/-- Values up to the first other word, and groups from there on. -/
def groups : List Word → List Text × List Group
  | [] => ([], [])
  | w :: ws =>
    let (values, gs) := groups ws
    match w with
    | .value t => (t :: values, gs)
    | _ => ([], (w, values) :: gs)

/-- Takes groups in order; `left` are the values that stand in front of the first of them. -/
def takeGroups (c : CommandLine) (left : List Text) :
    List Group → Except CommandStop (CommandLine × List Text)
  | [] => .ok (c, left)
  | (w, values) :: gs =>
    let c' := c.place left
    match w with
    | .value t => takeGroups c' (t :: values) gs
    | .unknown t => takeGroups { c' with unrecognized := c'.unrecognized ++ [t] } values gs
    | .flag u =>
      match c'.takeUse u values with
      | .error stop => .error stop
      | .ok (c'', left') => takeGroups c'' left' gs

def missing (c : CommandLine) : List Text :=
  (if c.files.isEmpty then ["files".toList] else [])
    ++ if c.rootsGiven then [] else [Flag.rootDir.label]

def checked (c : CommandLine) : Except CommandStop CommandLine :=
  if !c.missing.isEmpty then .error (.usage (.missingArguments c.missing))
  else if !c.unrecognized.isEmpty then .error (.usage (.unrecognized c.unrecognized))
  else .ok c

def ofArguments (arguments : List Text) : Except CommandStop CommandLine :=
  match Word.ofArguments arguments with
  | .error e => .error (.usage e)
  | .ok (words, behind) =>
    let (values, gs) := groups words
    match takeGroups {} values gs with
    | .error stop => .error stop
    | .ok (c, left) => (c.placeLast left behind).checked

def verbosity (c : CommandLine) : Int :=
  if c.quiet then -1 else c.verbose

end CommandLine

end SliceIdl
