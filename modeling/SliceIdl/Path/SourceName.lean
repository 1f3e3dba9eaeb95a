import SliceIdl.Text.Basic

/-!
# Names of source files

A source file has the extension `.ice`; its stem is what stands in front of it and is never empty.
-/

set_option autoImplicit false

namespace SliceIdl

def sourceExtension : Text :=
  ".ice".toList

/-- The part of a file name in front of its extension, unless there is none. -/
def stem? (name : Text) : Option Text :=
  if sourceExtension.isSuffixOf name ∧ sourceExtension.length < name.length then
    some (name.take (name.length - sourceExtension.length))
  else none

theorem stem?_eq_some_iff {name stem : Text} :
    stem? name = some stem ↔ stem ≠ [] ∧ name = stem ++ sourceExtension := by
  constructor
  · intro h
    rw [stem?] at h
    split at h
    · next hs =>
      obtain ⟨t, ht⟩ := List.isSuffixOf_iff_suffix.1 hs.1
      subst ht
      simp only [List.length_append, Nat.add_sub_cancel, List.take_left', Option.some.injEq] at h
      subst h
      refine ⟨?_, rfl⟩
      rintro rfl
      simp at hs
    · simp at h
  · rintro ⟨hne, rfl⟩
    have hpos : 0 < stem.length := List.length_pos_iff.2 hne
    have hs : sourceExtension.isSuffixOf (stem ++ sourceExtension) = true :=
      List.isSuffixOf_iff_suffix.2 (List.suffix_append ..)
    rw [stem?, if_pos ⟨hs, by simp [hpos]⟩]
    simp

end SliceIdl
