import SliceIdl.Source.Progress

/-!
# Cutting source text into pieces

A source text is cut into pieces from the front. The pieces and what is left behind them always make
up the whole text; something is left exactly when no terminal fits there.
-/

set_option autoImplicit false

namespace SliceIdl

def pieces (t : Text) : List Piece × Text :=
  match h : Piece.first? t with
  | none => ([], t)
  | some (p, r) =>
    have := Piece.first?_length h
    let (ps, rest) := pieces r
    (p :: ps, rest)
termination_by t.length

def coveredText (ps : List Piece) : Text :=
  ps.flatMap Piece.text

theorem pieces_append (t : Text) : coveredText (pieces t).1 ++ (pieces t).2 = t := by
  fun_induction pieces t with
  | case1 => rfl
  | case2 t p r h _ ps rest heq ih =>
    rw [heq] at ih
    simp only [coveredText, List.flatMap_cons, List.append_assoc] at ih ⊢
    rw [ih]
    exact Piece.first?_append h

/-- The significant tokens among pieces of which the first starts at `pos`. -/
def tokensFrom (pos : Position) : List Piece → List Token
  | [] => []
  | p :: ps =>
    match p.kind with
    | .token kind => ⟨kind, p.text, pos⟩ :: tokensFrom (pos.after p.text) ps
    | .layout _ => tokensFrom (pos.after p.text) ps

/-- What the text offers to the grammar: its tokens, and the character at which the text stops
being cut into tokens, if there is one. -/
structure Scan where
  tokens : List Token
  stop : Option (Char × Position)
  deriving DecidableEq, Repr

def Scan.ofText (t : Text) : Scan :=
  let (ps, rest) := pieces t
  { tokens := tokensFrom .start ps
    stop := rest.head?.map fun c => (c, Position.start.after (coveredText ps)) }

end SliceIdl
