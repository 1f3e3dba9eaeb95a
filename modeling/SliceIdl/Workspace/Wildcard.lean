import SliceIdl.Workspace.Bracket

/-!
# Wildcards

A pattern for one name: `*` stands for any text, `?` for any character and a set in brackets for one
of its characters. A set may start with `!` to be negated and may hold ranges. A range whose end
comes before its start holds nothing and vanishes. A bracket that is not closed stands for itself.
-/

set_option autoImplicit false

namespace SliceIdl

structure CharSet where
  negated : Bool
  ranges : List (Char × Char)
  deriving DecidableEq, Repr

namespace CharSet

def holds (s : CharSet) (c : Char) : Bool :=
  (s.ranges.any fun r => r.1 ≤ c && c ≤ r.2) != s.negated

/-- The chunks between the hyphens that make ranges: behind such a hyphen the next two characters
make none. A hyphen at the very end stands for itself. -/
def chunks (least : Nat) (t : Text) : List Text :=
  match h : cut least t with
  | none => [t]
  | some (c, []) => [c ++ ['-']]
  | some (c, d :: rest) =>
    have := cut_length h
    c :: chunks 2 (d :: rest)
termination_by t.length

/-- Removes the ends of the ranges that hold nothing and joins the chunks around them. -/
def withoutEmptyRanges : List Text → List Text
  | [] => []
  | c :: rest =>
    match withoutEmptyRanges rest with
    | [] => [c]
    | d :: ds =>
      match c.getLast?, d.head? with
      | some low, some high => if high < low then (c.dropLast ++ d.tail) :: ds else c :: d :: ds
      | _, _ => c :: d :: ds

/-- The ranges that chunks denote: one from the last character of each to the first of the next,
and all other characters by themselves. Behind an empty chunk the hyphen stands for itself. -/
def rangesOf : List Text → List (Char × Char)
  | [] => []
  | c :: rest => go c rest
where
  go (c : Text) : List Text → List (Char × Char)
    | [] => c.map fun x => (x, x)
    | d :: rest =>
      match c.getLast?, d with
      | some low, high :: d' => (c.dropLast.map fun x => (x, x)) ++ (low, high) :: go d' rest
      | _, _ => ('-', '-') :: go d rest

def ofText (t : Text) : CharSet :=
  match withoutEmptyRanges (chunks (if t.head? = some '!' then 2 else 1) t) with
  | ('!' :: c) :: rest => ⟨true, rangesOf (c :: rest)⟩
  | cs => ⟨false, rangesOf cs⟩

end CharSet

inductive WildItem where
  | anyText
  | anyChar
  | char (c : Char)
  | set (s : CharSet)
  deriving DecidableEq, Repr

namespace Wildcard

def items : Text → List WildItem
  | [] => []
  | c :: t =>
    if c = '*' then .anyText :: items t
    else if c = '?' then .anyChar :: items t
    else if c = '[' then
      match h : setSplit? t with
      | some (s, rest) =>
        have := setSplit?_length h
        .set (.ofText s) :: items rest
      | none => .char '[' :: items t
    else .char c :: items t
termination_by t => t.length

def onEndings (f : Text → Bool) : Text → List Bool
  | [] => [f []]
  | c :: t => f (c :: t) :: onEndings f t

def nowOrLater : List Bool → List Bool
  | [] => []
  | b :: bs =>
    match nowOrLater bs with
    | [] => [b]
    | later :: rest => (b || later) :: later :: rest

/-- Whether the first character passes and the value of what follows it is true, for each ending of
a text whose endings have the given values. -/
def afterOne (f : Char → Bool) : Text → List Bool → List Bool
  | c :: t, _ :: later :: rest => (f c && later) :: afterOne f t (later :: rest)
  | _, _ => [false]

/-- Whether the items match each ending of a text. The work is bounded by the length of the text for
each item, however many ways there are to match it. -/
def endingsMatch : List WildItem → Text → List Bool
  | [], t => onEndings List.isEmpty t
  | .anyText :: ps, t => nowOrLater (endingsMatch ps t)
  | .anyChar :: ps, t => afterOne (fun _ => true) t (endingsMatch ps t)
  | .char p :: ps, t => afterOne (p == ·) t (endingsMatch ps t)
  | .set s :: ps, t => afterOne s.holds t (endingsMatch ps t)

def matches? (pattern name : Text) : Bool :=
  (endingsMatch (items pattern) name).headD false

end Wildcard

end SliceIdl
