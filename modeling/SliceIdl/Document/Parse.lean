import SliceIdl.Document.Build
import SliceIdl.Grammar.Parser
import SliceIdl.Source.Scan

/-!
# Parsing source text

The earliest problem is reported. The tokens are asked for one by one, so a character that no
terminal matches only counts if every token in front of it was acceptable; the rules on trees come
after the grammar.
-/

set_option autoImplicit false

namespace SliceIdl

/-- Where a text that ends too early is said to end: at its last token. -/
def endPosition (tokens : List Token) : Position :=
  (tokens.getLast?.map Token.pos).getD .start

def parseFile (source : Text) : Except SyntaxError Grammar.File :=
  let scan := Scan.ofText source
  match Grammar.File.ofTokens scan.tokens, scan.stop with
  | .error (t :: _), _ => .error (.unexpectedToken t)
  | _, some (c, pos) => .error (.unmatchedCharacter c pos)
  | .error [], none => .error (.unexpectedEnd (endPosition scan.tokens))
  | .ok f, none => .ok f

def Document.parse (source : Text) : Except SyntaxError Document := do
  let f ← parseFile source
  (Grammar.File.build f).mapError .rejected

end SliceIdl
