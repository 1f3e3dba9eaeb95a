/-!
# Text and code points

Source text, names and paths are lists of characters. A string literal can name any code point,
surrogates included, so decoded strings are lists of code points instead.
-/

set_option autoImplicit false

namespace SliceIdl

abbrev Text := List Char

instance : LawfulBEq Text :=
  inferInstance

/-- A Unicode code point; unlike a character it may be a surrogate. -/
abbrev CodePoint := Fin 0x110000

instance codePointsExist : @NeZero Nat Zero.ofOfNat0 0x110000 :=
  ⟨Nat.succ_ne_zero _⟩

namespace CodePoint

def ofChar (c : Char) : CodePoint :=
  ⟨c.toNat, by
    have h := c.valid
    simp only [UInt32.isValidChar, Nat.isValidChar] at h
    show c.val.toNat < 0x110000
    omega⟩

def ofNat? (n : Nat) : Option CodePoint :=
  if h : n < 0x110000 then some ⟨n, h⟩ else none

theorem ofChar_injective {c d : Char} (h : ofChar c = ofChar d) : c = d := by
  have h' : c.val.toNat = d.val.toNat := congrArg (fun p : CodePoint => p.val) h
  exact Char.ext (UInt32.toNat_inj.1 h')

end CodePoint

namespace Text

def codePoints (t : Text) : List CodePoint :=
  t.map CodePoint.ofChar

def inRanges (ranges : List (Nat × Nat)) (c : Char) : Bool :=
  ranges.any fun r => r.1 ≤ c.toNat && c.toNat ≤ r.2

/-- What follows `w` in a text that starts with it. -/
def after? : Text → Text → Option Text
  | [], t => some t
  | c :: w, d :: t => if c = d then after? w t else none
  | _ :: _, [] => none

theorem append_eq_of_after? {w t r : Text} (h : after? w t = some r) : w ++ r = t := by
  induction w generalizing t with
  | nil => simpa [after?] using h.symm
  | cons c w ih =>
    cases t with
    | nil => simp [after?] at h
    | cons d t =>
      by_cases hcd : c = d
      · simp only [after?, hcd, if_true] at h
        simp [hcd, ih h]
      · simp [after?, hcd] at h

theorem after?_append (w t : Text) : after? w (w ++ t) = some t := by
  induction w with
  | nil => rfl
  | cons c w ih => simpa [after?] using ih

def upTo : Text → Text → Bool
  | [], _ => true
  | _ :: _, [] => false
  | c :: s, d :: t => c < d || (c == d && upTo s t)

def joined (sep : Text) : List Text → Text
  | [] => []
  | [t] => t
  | t :: u :: rest => t ++ sep ++ joined sep (u :: rest)

end Text

end SliceIdl
