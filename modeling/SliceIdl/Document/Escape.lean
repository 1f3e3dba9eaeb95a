import SliceIdl.Document.Basic
import SliceIdl.Text.Numeral

/-!
# Escapes

In a string a backslash starts an escape: code points are named by `u` and four hexadecimal digits,
`U` and eight, `x` and all that follow, or up to three octal digits; the letters of the C escapes
stand for control characters and any other character for itself. An escape takes at least one
character.
-/

set_option autoImplicit false

namespace SliceIdl.Literal

def simpleEscape (c : Char) : CodePoint :=
  match c with
  | 'n' => 10
  | 't' => 9
  | 'r' => 13
  | 'a' => 7
  | 'b' => 8
  | 'f' => 12
  | 'v' => 11
  | c => CodePoint.ofChar c

/-- The digits that an escape takes behind its backslash and letter: exactly `count` hexadecimal
digits, or none. -/
def exactHex? (count : Nat) (t : Text) : Option (Text × Text) :=
  let digits := t.take count
  if digits.length = count ∧ digits.all Text.isHexDigit then some (digits, t.drop count) else none

def octalRun (t : Text) : Text × Text :=
  let digits := (t.take 3).takeWhile Text.isOctalDigit
  (digits, t.drop digits.length)

/-- One escape, its backslash removed, and what follows it. A letter that announces hexadecimal
digits must have them, and they must name a code point. -/
def escape? : Text → Option (CodePoint × Text)
  | [] => none
  | c :: t =>
    if c = 'u' then numbered (exactHex? 4 t)
    else if c = 'U' then numbered (exactHex? 8 t)
    else if c = 'x' then
      match t.takeWhile Text.isHexDigit with
      | [] => none
      | digits => numbered (some (digits, t.dropWhile Text.isHexDigit))
    else if Text.isOctalDigit c then
      let (digits, rest) := octalRun (c :: t)
      (CodePoint.ofNat? (Text.ofDigits 8 (digits.filterMap Text.hexValue?))).map fun p => (p, rest)
    else some (simpleEscape c, t)
where
  numbered : Option (Text × Text) → Option (CodePoint × Text)
    | none => none
    | some (digits, rest) => (CodePoint.ofNat? (Text.hexNumber digits)).map fun p => (p, rest)

theorem octalRun_length (c : Char) (t : Text) (h : Text.isOctalDigit c = true) :
    (octalRun (c :: t)).2.length ≤ t.length := by
  simp [octalRun, List.take_succ_cons, List.takeWhile_cons_of_pos h]

theorem escape?_length {t r : Text} {p : CodePoint} (h : escape? t = some (p, r)) :
    r.length < t.length := by
  cases t with
  | nil => simp [escape?] at h
  | cons c t =>
    rw [escape?] at h
    split at h
    · exact numbered_length h
    split at h
    · exact numbered_length h
    split at h
    · split at h
      · simp at h
      · simp only [escape?.numbered, Option.map_eq_some_iff, Prod.mk.injEq] at h
        obtain ⟨_, _, _, rfl⟩ := h
        have := (List.dropWhile_suffix (l := t) Text.isHexDigit).length_le
        simp only [List.length_cons]
        omega
    split at h
    · next ho =>
      simp only [Option.map_eq_some_iff, Prod.mk.injEq] at h
      obtain ⟨_, _, _, rfl⟩ := h
      have := octalRun_length c t ho
      simp only [List.length_cons]
      omega
    · simp only [Option.some.injEq, Prod.mk.injEq] at h
      obtain ⟨_, rfl⟩ := h
      simp
where
  numbered_length {n : Nat} {c : Char} {t r : Text} {p : CodePoint}
      (h : escape?.numbered (exactHex? n t) = some (p, r)) : r.length < (c :: t).length := by
    rw [exactHex?] at h
    split at h
    · simp only [escape?.numbered, Option.map_eq_some_iff, Prod.mk.injEq] at h
      obtain ⟨_, _, _, rfl⟩ := h
      simp only [List.length_drop, List.length_cons]
      omega
    · simp [escape?.numbered] at h

end SliceIdl.Literal
