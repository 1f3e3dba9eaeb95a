import SliceIdl.Text.Basic

/-!
# Texts in brackets

Where the set that a bracket opens ends, and where the text of a set is cut into its ranges. Each
cut leaves less than there was.
-/

set_option autoImplicit false

namespace SliceIdl

namespace CharSet

/-- Cuts a text at the first hyphen that has at least so many characters in front of it. -/
def cut (least : Nat) (t : Text) : Option (Text × Text) :=
  match (t.drop least).dropWhile (· != '-') with
  | [] => none
  | _ :: rest => some (t.take least ++ (t.drop least).takeWhile (· != '-'), rest)

theorem cut_length {least : Nat} {t c r : Text} (h : cut least t = some (c, r)) :
    r.length < t.length := by
  rw [cut] at h
  split at h
  · simp at h
  · next d rest heq =>
    simp only [Option.some.injEq, Prod.mk.injEq] at h
    obtain ⟨-, rfl⟩ := h
    have hs := (List.dropWhile_suffix (l := t.drop least) (· != '-')).length_le
    rw [heq] at hs
    simp only [List.length_cons, List.length_drop] at hs
    omega

end CharSet

namespace Wildcard

def takeLeading (c : Char) : Text → Text × Text
  | [] => ([], [])
  | d :: t => if d = c then ([c], t) else ([], d :: t)

theorem takeLeading_length (c : Char) (t : Text) : (takeLeading c t).2.length ≤ t.length := by
  cases t with
  | nil => exact Nat.le_refl _
  | cons d t =>
    rw [takeLeading]
    split
    · exact Nat.le_succ _
    · exact Nat.le_refl _

/-- The inside of a set whose opening bracket has been read, and what follows its closing bracket,
if there is one. A closing bracket at the start of a set belongs to the set. -/
def setSplit? (t : Text) : Option (Text × Text) :=
  let bang := takeLeading '!' t
  let bracket := takeLeading ']' bang.2
  match bracket.2.dropWhile (· != ']') with
  | [] => none
  | _ :: rest => some (bang.1 ++ bracket.1 ++ bracket.2.takeWhile (· != ']'), rest)

theorem setSplit?_length {t s r : Text} (h : setSplit? t = some (s, r)) :
    r.length < t.length + 1 := by
  have hbang := takeLeading_length '!' t
  have hbracket := takeLeading_length ']' (takeLeading '!' t).2
  rw [setSplit?] at h
  split at h
  · simp at h
  · next c rest heq =>
    simp only [Option.some.injEq, Prod.mk.injEq] at h
    obtain ⟨-, rfl⟩ := h
    have hs := (List.dropWhile_suffix
      (l := (takeLeading ']' (takeLeading '!' t).2).2) (· != ']')).length_le
    rw [heq] at hs
    simp only [List.length_cons] at hs
    omega

end Wildcard

end SliceIdl
