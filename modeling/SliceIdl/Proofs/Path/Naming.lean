import SliceIdl.Load.Resolve
import SliceIdl.Load.Unit
import SliceIdl.Proofs.Path.Segments

/-!
# Names and the files they stand for

A file is named below the most specific of the roots that contain it. Looked for below that root
again, its name leads back to its own path, and it leads there below no other root. The one
exception is a path with two leading slashes that lies below the root of all files: its name starts
with a slash, which looking it up does not keep.
-/

set_option autoImplicit false

namespace SliceIdl

namespace LogicalName
open SliceIdl.Path

theorem exists_rootPrefix (root : Text) : ∃ before, rootPrefix root = before ++ ['/'] := by
  rw [rootPrefix]
  split
  · next h =>
    rw [endsInSlash, beq_iff_eq] at h
    obtain ⟨before, hb⟩ := List.getLast?_eq_some_iff.1 h
    exact ⟨before, hb⟩
  · exact ⟨root, rfl⟩

theorem endsInSlash_joined {ss : List Text} (h : ∀ s ∈ ss, IsSegment s) :
    endsInSlash (Text.joined ['/'] ss) = false := by
  induction ss with
  | nil => rfl
  | cons s ss ih =>
    have hs := h s List.mem_cons_self
    by_cases hss : ss = []
    · subst hss
      exact endsInSlash_of_slashFree hs.2
    · have hne : Text.joined ['/'] ss ≠ [] := by
        intro hj
        have hall : ∀ t ∈ ss, '/' ∉ t := fun t ht => (h t (List.mem_cons_of_mem _ ht)).2
        have hseg := segments_joined hss hall
        rw [hj] at hseg
        exact (h [] (List.mem_cons_of_mem _ (hseg ▸ List.mem_singleton_self _))).1 rfl
      rw [joined_cons hss, List.append_cons, endsInSlash_append hne]
      exact ih fun t ht => h t (List.mem_cons_of_mem _ ht)

theorem eq_slashes_of_endsInSlash {root : Text} (h : IsCanonical root) (hs : endsInSlash root) :
    root = ['/'] ∨ root = ['/', '/'] := by
  cases h with
  | @one ss h =>
    by_cases hj : Text.joined ['/'] ss = []
    · exact .inl (by rw [hj])
    · rw [← List.singleton_append, endsInSlash_append hj, endsInSlash_joined h] at hs
      cases hs
  | @two ss h =>
    by_cases hj : Text.joined ['/'] ss = []
    · exact .inr (by rw [hj])
    · have hs' : endsInSlash (['/', '/'] ++ Text.joined ['/'] ss) := hs
      rw [endsInSlash_append hj, endsInSlash_joined h] at hs'
      cases hs'

theorem append_slash_ne {root other : Text} (hr : IsCanonical root) (hs : endsInSlash root)
    (ho : IsCanonical other) (hn : endsInSlash other = false) : root ≠ other ++ ['/'] := by
  rintro rfl
  rcases eq_slashes_of_endsInSlash hr hs with h | h
  · have hnil : other = [] := List.append_cancel_right (h.trans (List.nil_append _).symm)
    subst hnil
    cases ho
  · have htwo : other ++ ['/'] = ['/'] ++ ['/'] := h
    obtain rfl : other = ['/'] := List.append_cancel_right htwo
    cases hn

theorem rootPrefix_injective {root other : Text} (hr : IsCanonical root) (ho : IsCanonical other)
    (h : rootPrefix root = rootPrefix other) : root = other := by
  rw [rootPrefix, rootPrefix] at h
  split at h
  · next hs =>
    split at h
    · exact h
    · next hn => exact absurd h (append_slash_ne hr hs ho (by simpa using hn))
  · next hn =>
    split at h
    · next hs => exact absurd h.symm (append_slash_ne ho hs hr (by simpa using hn))
    · exact List.append_cancel_right h

theorem sourceExtension_slashFree : '/' ∉ sourceExtension := by
  decide

theorem relativePath_of_isRelative {name : Text} (h : IsRelative name) :
    relativePath name = name ++ sourceExtension := by
  rw [relativePath, joinAll_segments h]

theorem relativePath_slash (name : Text) : relativePath ('/' :: name) = relativePath name := rfl

theorem isAbsolute_relativePath (name : Text) : isAbsolute (relativePath name) = false := by
  have ha : isAbsolute (joinAll (segments name)) = false :=
    isAbsolute_joinAll fun s hs => slashFree_of_mem_segments hs
  rw [relativePath]
  by_cases hj : joinAll (segments name) = []
  · rw [hj]
    rfl
  · rwa [isAbsolute_append hj]

theorem probePath_eq {root : Text} (h : root ≠ []) (name : Text) :
    probePath root name = rootPrefix root ++ relativePath name := by
  rw [probePath, join_of_relative h (isAbsolute_relativePath name), rootPrefix]
  split
  · rfl
  · rw [List.append_assoc, List.singleton_append]

/-- A root that contains a path, and no root that contains it has a longer prefix. -/
def MostSpecific (path : Text) (roots : List Text) (root : Text) : Prop :=
  root ∈ roots ∧ rootPrefix root <+: path ∧
    ∀ other ∈ roots, rootPrefix other <+: path →
      (rootPrefix other).length ≤ (rootPrefix root).length

theorem shortest?_eq_none_iff {ts : List Text} : shortest? ts = none ↔ ts = [] := by
  cases ts with
  | nil => simp [shortest?]
  | cons t ts =>
    rw [shortest?]
    split
    · simp
    · split <;> simp

theorem shortest?_eq_some {ts : List Text} {t : Text} (h : shortest? ts = some t) :
    t ∈ ts ∧ ∀ u ∈ ts, t.length ≤ u.length := by
  induction ts generalizing t with
  | nil => cases h
  | cons first ts ih =>
    rw [shortest?] at h
    split at h
    · next hn =>
      cases h
      rw [shortest?_eq_none_iff.1 hn]
      simp
    · next u hu =>
      obtain ⟨hmem, hall⟩ := ih hu
      split at h
      · next hlt =>
        cases h
        constructor
        · exact List.mem_cons_of_mem _ hmem
        · intro v hv
          rcases List.mem_cons.1 hv with rfl | hv
          · exact Nat.le_of_lt hlt
          · exact hall v hv
      · next hge =>
        cases h
        constructor
        · exact List.mem_cons_self
        · intro v hv
          rcases List.mem_cons.1 hv with rfl | hv
          · exact Nat.le_refl _
          · exact Nat.le_trans (Nat.le_of_not_lt hge) (hall v hv)

theorem remainder?_eq_some_iff {path root rest : Text} :
    remainder? path root = some rest ↔ rootPrefix root ++ rest = path := by
  constructor
  · exact Text.append_eq_of_after?
  · rintro rfl
    exact Text.after?_append _ _

theorem relative?_eq_some_iff {path rest : Text} {roots : List Text} :
    relative? path roots = some rest ↔
      ∃ root, MostSpecific path roots root ∧ rootPrefix root ++ rest = path := by
  have hmem (other rest' : Text) (ho : other ∈ roots) (h : rootPrefix other ++ rest' = path) :
      rest' ∈ roots.filterMap (remainder? path) :=
    List.mem_filterMap.2 ⟨other, ho, remainder?_eq_some_iff.2 h⟩
  have hlength {root other rest rest' : Text} (h : rootPrefix root ++ rest = path)
      (h' : rootPrefix other ++ rest' = path) :
      (rootPrefix other).length ≤ (rootPrefix root).length ↔ rest.length ≤ rest'.length := by
    have hlen := congrArg List.length (h.trans h'.symm)
    rw [List.length_append, List.length_append] at hlen
    omega
  constructor
  · intro h
    obtain ⟨hrest, hshort⟩ := shortest?_eq_some h
    obtain ⟨root, hroot, hrem⟩ := List.mem_filterMap.1 hrest
    rw [remainder?_eq_some_iff] at hrem
    refine ⟨root, ⟨hroot, ⟨rest, hrem⟩, ?_⟩, hrem⟩
    rintro other ho ⟨rest', hrest'⟩
    exact (hlength hrem hrest').2 (hshort rest' (hmem other rest' ho hrest'))
  · rintro ⟨root, ⟨hroot, -, hlongest⟩, hrem⟩
    cases h : relative? path roots with
    | none =>
      rw [relative?, shortest?_eq_none_iff] at h
      exact absurd (hmem root rest hroot hrem) (h ▸ List.not_mem_nil)
    | some rest' =>
      obtain ⟨hrest', hshort⟩ := shortest?_eq_some h
      obtain ⟨other, ho, hrem'⟩ := List.mem_filterMap.1 hrest'
      rw [remainder?_eq_some_iff] at hrem'
      -- Both are what the path ends in, and they are equally long.
      have hle := hshort rest (hmem root rest hroot hrem)
      have hge := (hlength hrem hrem').1 (hlongest other ho ⟨rest', hrem'⟩)
      have hboth : rootPrefix other ++ rest' = rootPrefix root ++ rest := hrem'.trans hrem.symm
      rw [List.append_inj_right' hboth (Nat.le_antisymm hle hge)]

/-- A name is what the path has behind the prefix of its most specific root, less the extension. -/
theorem resolve_eq_ok {path name : Text} {roots : List Text} (h : resolve path roots = .ok name) :
    ∃ root, MostSpecific path roots root ∧
      rootPrefix root ++ (name ++ sourceExtension) = path := by
  rw [resolve] at h
  split at h
  · cases h
  next rest hrel =>
  split at h
  · cases h
  next stem hstem =>
  cases h
  obtain ⟨root, hs, hrem⟩ := relative?_eq_some_iff.1 hrel
  exact ⟨root, hs, (stem?_eq_some_iff.1 hstem).2 ▸ hrem⟩

variable {path name root : Text} {roots : List Text}

/-- What a canonical path has behind the prefix of a root is looked up as it is, unless the path has
two leading slashes and the prefix has one. -/
theorem behind_prefix (hp : IsCanonical path)
    (hn : rootPrefix root ++ (name ++ sourceExtension) = path) :
    IsRelative name ∨ rootPrefix root = ['/'] ∧ path = '/' :: '/' :: relativePath name := by
  obtain ⟨before, hb⟩ := exists_rootPrefix root
  have hsplit : before ++ '/' :: (name ++ sourceExtension) = path := by
    rw [← hn, hb, List.append_assoc, List.singleton_append]
  rcases (hsplit ▸ hp : IsCanonical _).after_slash with hrel | ⟨rfl, rest, hrest, hrel⟩
  · exact .inl ((isRelative_append_iff sourceExtension_slashFree name).1 hrel)
  · right
    constructor
    · exact hb
    cases name with
    | nil => cases hrest
    | cons c stem =>
      obtain ⟨rfl, rfl⟩ := List.cons_eq_cons.1 hrest
      have hstem : IsRelative stem :=
        (isRelative_append_iff sourceExtension_slashFree stem).1 hrel
      rw [relativePath_slash, relativePath_of_isRelative hstem]
      exact hsplit.symm

/-- A name leads to the path that it was given for below the most specific root only, and there
unless a second leading slash is lost. -/
theorem MostSpecific.probePath_eq_iff (hs : MostSpecific path roots root) (hp : IsCanonical path)
    (hr : ∀ r ∈ roots, IsCanonical r)
    (hn : rootPrefix root ++ (name ++ sourceExtension) = path) {other : Text} (ho : other ∈ roots) :
    probePath other name = path ↔
      other = root ∧ ¬ (root = ['/'] ∧ ['/', '/'] <+: path) := by
  have hne : other ≠ [] := by
    rintro rfl
    cases hr [] ho
  rw [probePath_eq hne]
  rcases behind_prefix hp hn with hrel | ⟨hroot, hpath⟩
  · rw [relativePath_of_isRelative hrel]
    constructor
    · intro h
      have hpre := List.append_cancel_right (h.trans hn.symm)
      constructor
      · exact rootPrefix_injective (hr other ho) (hr root hs.1) hpre
      rintro ⟨rfl, rest, hrest⟩
      have hslash : name ++ sourceExtension = '/' :: rest :=
        List.tail_eq_of_cons_eq (hn.trans hrest.symm)
      have hall := (isRelative_append_iff sourceExtension_slashFree name).2 hrel
      rw [hslash] at hall
      exact not_isRelative_slash hall
    · rintro ⟨rfl, -⟩
      exact hn
  · have hslash : root = ['/'] :=
      rootPrefix_injective (hr root hs.1) slash_canonical hroot
    subst hslash
    constructor
    · intro h
      have htwo : rootPrefix other = ['/', '/'] :=
        List.append_cancel_right (h.trans hpath)
      have hle := hs.2.2 other ho ⟨_, h⟩
      rw [htwo] at hle
      exact absurd hle (by decide)
    · rintro ⟨-, hno⟩
      exact absurd ⟨rfl, _, hpath.symm⟩ hno

end LogicalName

end SliceIdl
