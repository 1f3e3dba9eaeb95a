import SliceIdl.Command.Flag
import SliceIdl.Text.Quoted

/-!
# Usage errors

Why the arguments of a command are refused.
-/

set_option autoImplicit false

namespace SliceIdl

inductive UsageError where
  | ambiguous (argument : Text) (candidates : List Text)
  | uselessValue (f : Flag) (value : Text)
  | missingValue (f : Flag)
  | missingArguments (names : List Text)
  | unrecognized (arguments : List Text)
  deriving DecidableEq, Repr

namespace UsageError

def flagMessage (f : Flag) (problem : Text) : Text :=
  "argument ".toList ++ f.label ++ ": ".toList ++ problem

def expectation : Arity → Text
  | .oneOrMore => "expected at least one argument".toList
  | _ => "expected one argument".toList

def message : UsageError → Text
  | ambiguous argument candidates =>
    "ambiguous option: ".toList ++ argument ++ " could match ".toList
      ++ Text.joined ", ".toList candidates
  | uselessValue f value =>
    flagMessage f ("ignored explicit argument ".toList ++ Text.quoted value)
  | missingValue f => flagMessage f (expectation f.arity)
  | missingArguments names =>
    "the following arguments are required: ".toList ++ Text.joined ", ".toList names
  | unrecognized arguments =>
    "unrecognized arguments: ".toList ++ Text.joined [' '] arguments

end UsageError

end SliceIdl
