import SliceIdl.Command.UsageError
import SliceIdl.Text.DecimalDigit

/-!
# Words of a command

Each argument is a value, a use of a flag, or a flag that does not exist. A flag may be given by an
exact spelling, by the beginning of one long spelling, or by its letter with more text behind it; a
value may be attached to it, also with an equals sign. What looks like a negative number or has a
space in it is a value, unless it gives a flag. Two hyphens alone end the flags.
-/

set_option autoImplicit false

namespace SliceIdl

structure FlagUse where
  flag : Flag
  isShort : Bool
  /-- Text in the same argument as the flag, without an equals sign in between. -/
  attached : Option Text
  deriving DecidableEq, Repr

inductive Word where
  | value (t : Text)
  | flag (use : FlagUse)
  | unknown (t : Text)
  deriving DecidableEq, Repr

namespace Word

def splitAtSign (t : Text) : Text × Option Text :=
  match t.dropWhile (· != '=') with
  | [] => (t, none)
  | _ :: rest => (t.takeWhile (· != '='), some rest)

/-- Whether a hyphen in front of the text makes a negative number; a line break at the end is
ignored. -/
def isNumberTail (t : Text) : Bool :=
  let digits := if t.getLast? = some '\n' then t.dropLast else t
  match digits.dropWhile Text.isDecimalDigit with
  | [] => !digits.isEmpty
  | '.' :: fraction => !fraction.isEmpty && fraction.all Text.isDecimalDigit
  | _ => false

def completions (beginning : Text) : List (Text × Flag) :=
  Flag.table.filter fun entry => beginning.isPrefixOf entry.1

def ofLong (t : Text) : Except UsageError Word :=
  let (beginning, behind) := splitAtSign t
  match completions beginning with
  | [] => .ok (if ' ' ∈ t then .value t else .unknown t)
  | [(_, f)] => .ok (.flag ⟨f, false, behind⟩)
  | candidates => .error (.ambiguous t (candidates.map Prod.fst))

def ofShort (letter : Char) (rest : Text) : Word :=
  let t := '-' :: letter :: rest
  match Flag.ofLetter? letter with
  | some f => .flag ⟨f, true, some rest⟩
  | none => if isNumberTail (letter :: rest) || ' ' ∈ t then .value t else .unknown t

/-- The word of an argument in front of which the flags have not ended. -/
def ofText : Text → Except UsageError Word
  | '-' :: c :: rest =>
    let t := '-' :: c :: rest
    let isShort := c != '-'
    match Flag.ofSpelling? t with
    | some f => .ok (.flag ⟨f, isShort, none⟩)
    | none =>
      match splitAtSign t with
      | (name, some behind) =>
        match Flag.ofSpelling? name with
        | some f => .ok (.flag ⟨f, isShort, some behind⟩)
        | none => if isShort then .ok (ofShort c rest) else ofLong t
      | (_, none) => if isShort then .ok (ofShort c rest) else ofLong t
  | t => .ok (.value t)

def endOfFlags : Text :=
  ['-', '-']

/-- The words of the arguments, and the arguments behind the end of the flags. -/
def ofArguments : List Text → Except UsageError (List Word × Option (List Text))
  | [] => .ok ([], none)
  | t :: ts =>
    if t = endOfFlags then .ok ([], some ts)
    else
      match ofText t with
      | .error e => .error e
      | .ok w => (ofArguments ts).map fun r => (w :: r.1, r.2)

end Word

end SliceIdl
