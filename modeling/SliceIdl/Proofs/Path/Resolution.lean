import SliceIdl.Proofs.Path.Naming

/-!
# Which name a path has

The name of a file is what its path has behind the longest of the prefixes that its roots make, less
the extension. So all that counts of the roots is which there are, not in which order or how often.

Naming a file and looking its name up below the root that it was named for are inverse to each
other, wherever that root ends, as long as the path has no empty segment; and looking a name up and
naming what was looked for gives the name back just if it is written as a relative path.
-/

set_option autoImplicit false

namespace SliceIdl

def LoadError.withRoots (roots : List Text) : LoadError → LoadError
  | notInAnyRoot path _ => notInAnyRoot path roots
  | e => e

namespace LogicalName
open SliceIdl.Path

variable {path name root rest : Text} {roots : List Text}

theorem relative?_eq_none_iff :
    relative? path roots = none ↔ ∀ root ∈ roots, ¬ rootPrefix root <+: path := by
  constructor
  · rintro h root hr ⟨rest, hrest⟩
    have hmem : rest ∈ roots.filterMap (remainder? path) :=
      List.mem_filterMap.2 ⟨root, hr, remainder?_eq_some_iff.2 hrest⟩
    rw [relative?, shortest?_eq_none_iff] at h
    rw [h] at hmem
    cases hmem
  · intro h
    rw [relative?, shortest?_eq_none_iff, List.filterMap_eq_nil_iff]
    intro root hr
    rw [Option.eq_none_iff_forall_ne_some]
    exact fun rest hrest => h root hr ⟨rest, remainder?_eq_some_iff.1 hrest⟩

theorem exists_mostSpecific (h : ∃ root ∈ roots, rootPrefix root <+: path) :
    ∃ root, MostSpecific path roots root := by
  cases hrel : relative? path roots with
  | none =>
    obtain ⟨root, hr, hp⟩ := h
    exact absurd hp (relative?_eq_none_iff.1 hrel root hr)
  | some rest =>
    obtain ⟨root, hs, -⟩ := relative?_eq_some_iff.1 hrel
    exact ⟨root, hs⟩

theorem MostSpecific.congr {others : List Text} (h : ∀ root, root ∈ others ↔ root ∈ roots) :
    MostSpecific path others root ↔ MostSpecific path roots root := by
  simp only [MostSpecific, h]

theorem relative?_congr {others : List Text} (h : ∀ root, root ∈ others ↔ root ∈ roots) :
    relative? path others = relative? path roots := by
  apply Option.ext
  intro rest
  simp only [relative?_eq_some_iff, MostSpecific.congr h]

theorem MostSpecific.resolve_eq (hs : MostSpecific path roots root)
    (h : rootPrefix root ++ rest = path) :
    resolve path roots = match stem? rest with
      | none => .error (.invalidExtension path rest)
      | some name => .ok name := by
  have hrel := relative?_eq_some_iff.2 ⟨root, hs, h⟩
  cases hstem : stem? rest <;> simp only [resolve, hrel, hstem]

theorem resolve_eq_notInAnyRoot_iff :
    resolve path roots = .error (.notInAnyRoot path roots) ↔
      ∀ root ∈ roots, ¬ rootPrefix root <+: path := by
  rw [← relative?_eq_none_iff, resolve]
  cases relative? path roots with
  | none => simp
  | some rest => cases h : stem? rest <;> simp [h]

theorem MostSpecific.resolve_eq_ok_iff (hs : MostSpecific path roots root)
    (h : rootPrefix root ++ rest = path) :
    resolve path roots = .ok name ↔ name ≠ [] ∧ rest = name ++ sourceExtension := by
  rw [hs.resolve_eq h, ← stem?_eq_some_iff]
  cases stem? rest <;> simp

theorem MostSpecific.resolve_eq_invalidExtension_iff (hs : MostSpecific path roots root)
    (h : rootPrefix root ++ rest = path) :
    resolve path roots = .error (.invalidExtension path rest) ↔
      ∀ name, name ≠ [] → rest ≠ name ++ sourceExtension := by
  have hstem : stem? rest = none ↔ ∀ name, name ≠ [] → rest ≠ name ++ sourceExtension := by
    rw [Option.eq_none_iff_forall_ne_some]
    simp only [ne_eq, stem?_eq_some_iff, not_and]
  rw [hs.resolve_eq h, ← hstem]
  cases stem? rest <;> simp

theorem resolve_congr {others : List Text} (h : ∀ root, root ∈ others ↔ root ∈ roots) :
    resolve path others = (resolve path roots).mapError (LoadError.withRoots others) := by
  rw [resolve, resolve, relative?_congr h]
  cases relative? path roots with
  | none => rfl
  | some rest =>
    dsimp only
    cases stem? rest <;> rfl

/-- A path below none of the roots has no name. Below one of them, what it has behind the longest
prefix is its name and the extension, or else the extension is wrong. Other roots that are the same
but for their order and for repeats give the same name or the same error, told with them. -/
theorem resolve_mostSpecific (path : Text) (roots : List Text) :
    (resolve path roots = .error (.notInAnyRoot path roots) ↔
      ∀ root ∈ roots, ¬ rootPrefix root <+: path) ∧
    ((∃ root ∈ roots, rootPrefix root <+: path) → ∃ root, MostSpecific path roots root) ∧
    (∀ root rest, MostSpecific path roots root → rootPrefix root ++ rest = path →
      (∀ name, resolve path roots = .ok name ↔ name ≠ [] ∧ rest = name ++ sourceExtension) ∧
      (resolve path roots = .error (.invalidExtension path rest) ↔
        ∀ name, name ≠ [] → rest ≠ name ++ sourceExtension)) ∧
    ∀ others, (∀ root, root ∈ others ↔ root ∈ roots) →
      resolve path others = (resolve path roots).mapError (LoadError.withRoots others) := by
  refine ⟨resolve_eq_notInAnyRoot_iff, exists_mostSpecific, ?_, fun others => resolve_congr⟩
  intro root rest hs hrest
  exact ⟨fun name => hs.resolve_eq_ok_iff hrest, hs.resolve_eq_invalidExtension_iff hrest⟩

/-- Of a root and one below it the lower one counts, wherever and however often they are listed. -/
theorem resolve_mostSpecific_nested :
    MostSpecific "/x/y/a.ice".toList ["/x".toList, "/x/y".toList] "/x/y".toList ∧
    resolve "/x/y/a.ice".toList ["/x".toList, "/x/y".toList] = .ok ['a'] ∧
    resolve "/x/y/a.ice".toList ["/x/y".toList, "/x".toList, "/x".toList] = .ok ['a'] := by
  have hs : MostSpecific "/x/y/a.ice".toList ["/x".toList, "/x/y".toList] "/x/y".toList :=
    ⟨by decide, by decide, by decide⟩
  obtain ⟨-, -, hname, hothers⟩ :=
    resolve_mostSpecific "/x/y/a.ice".toList ["/x".toList, "/x/y".toList]
  have hok := ((hname _ "a.ice".toList hs (by decide)).1 ['a']).2 (by decide)
  have hall := hothers ["/x/y".toList, "/x".toList, "/x".toList] (by simp [or_comm])
  rw [hok] at hall
  exact ⟨hs, hok, hall⟩

theorem getLast_segments_ne_nil {p : Text} (hp : p ≠ []) (hs : endsInSlash p = false) :
    (segments p).getLast (segments_ne_nil p) ≠ [] := by
  intro hlast
  have hsegments := List.dropLast_concat_getLast (segments_ne_nil p)
  rw [hlast] at hsegments
  have hjoined := joined_segments p
  rw [← hsegments] at hjoined
  by_cases hfront : (segments p).dropLast = []
  · rw [hfront] at hjoined
    exact hp hjoined.symm
  · rw [joined_append hfront (List.cons_ne_nil [] [])] at hjoined
    have hend : endsInSlash (Text.joined ['/'] (segments p).dropLast ++ ['/']) = true := by
      rw [endsInSlash_append (List.cons_ne_nil '/' [])]
      rfl
    rw [← hjoined] at hs
    exact Bool.false_ne_true (hs.symm.trans hend)

theorem isRelative_join {base s : Text} (hb : IsRelative base) (hs : '/' ∉ s) :
    IsRelative (join base s) := by
  rw [join, if_neg (by simp [isAbsolute_of_slashFree hs])]
  split
  · exact (isRelative_append_iff hs base).2 hb
  · next hend =>
    simp only [Bool.or_eq_true, List.isEmpty_iff, not_or, Bool.not_eq_true] at hend
    have hlast := getLast_segments_ne_nil hend.1 hend.2
    rw [IsRelative, segments_append_slash, segments_of_slashFree hs, List.dropLast_concat,
      ← List.dropLast_concat_getLast (segments_ne_nil base)]
    exact List.forall_mem_append.2 ⟨hb, List.forall_mem_singleton.2 hlast⟩

theorem isRelative_joinAll {ss : List Text} (h : ∀ s ∈ ss, '/' ∉ s) : IsRelative (joinAll ss) := by
  rw [joinAll]
  have hb : IsRelative [] := by simp [IsRelative, segments]
  generalize ([] : Text) = base at hb
  induction ss generalizing base with
  | nil => exact hb
  | cons s ss ih =>
    exact ih (fun t ht => h t (List.mem_cons_of_mem _ ht)) _
      (isRelative_join hb (h s List.mem_cons_self))

theorem relativePath_eq_iff : relativePath name = name ++ sourceExtension ↔ IsRelative name := by
  constructor
  · intro h
    have hjoin : joinAll (segments name) = name := List.append_cancel_right h
    exact hjoin ▸ isRelative_joinAll fun s hs => slashFree_of_mem_segments hs
  · exact relativePath_of_isRelative

theorem resolve_probePath_iff (hr : root ≠ []) :
    resolve (probePath root name) [root] = .ok name ↔ name ≠ [] ∧ IsRelative name := by
  have hprobe := probePath_eq hr name
  have hs : MostSpecific (probePath root name) [root] root := by
    refine ⟨List.mem_singleton_self root, ⟨_, hprobe.symm⟩, ?_⟩
    exact List.forall_mem_singleton.2 fun _ => Nat.le_refl _
  rw [hs.resolve_eq_ok_iff hprobe.symm, relativePath_eq_iff]

theorem isRelative_behind (hp : [] ∉ (segments path).tail) (h : rootPrefix root ++ rest = path) :
    IsRelative rest := by
  obtain ⟨before, hb⟩ := exists_rootPrefix root
  rw [hb, List.append_assoc, List.singleton_append] at h
  rw [← h, segments_append_slash, List.tail_append_of_ne_nil (segments_ne_nil before)] at hp
  intro s hs hempty
  exact hp (List.mem_append_right _ (hempty ▸ List.dropLast_subset _ hs))

/-- In a path without empty segments the name leads from the most specific root back to the path. -/
theorem MostSpecific.probePath_eq (hs : MostSpecific path roots root) (hr : root ≠ [])
    (hp : [] ∉ (segments path).tail) (h : resolve path roots = .ok name) :
    probePath root name = path := by
  obtain ⟨rest, hrest⟩ := hs.2.1
  obtain ⟨-, rfl⟩ := (hs.resolve_eq_ok_iff hrest).1 h
  have hrel : IsRelative name :=
    (isRelative_append_iff sourceExtension_slashFree name).1 (isRelative_behind hp hrest)
  rw [LogicalName.probePath_eq hr, relativePath_of_isRelative hrel, hrest]

/-- Naming a file and looking its name up are inverse. A path that has no empty segment, but for the
one in front of its first slash, is where its name leads to from the most specific of the roots,
which need not be normal in any way; and a name without empty segments is the name of the path that
it leads to from a root. -/
theorem resolve_inverse :
    (∀ (path name : Text) (roots : List Text), [] ∉ (segments path).tail →
      (∀ root ∈ roots, root ≠ []) → resolve path roots = .ok name →
        (∃ root, MostSpecific path roots root) ∧
        ∀ root, MostSpecific path roots root → probePath root name = path) ∧
    ∀ root name : Text, root ≠ [] → (∀ s ∈ segments name, s ≠ []) →
      resolve (probePath root name) [root] = .ok name := by
  constructor
  · intro path name roots hp hr h
    obtain ⟨root, hs, -⟩ := resolve_eq_ok h
    exact ⟨⟨root, hs⟩, fun root hs => hs.probePath_eq (hr root hs.1) hp h⟩
  · intro root name hr hn
    rw [resolve_probePath_iff hr]
    constructor
    · rintro rfl
      exact hn [] List.mem_cons_self rfl
    · exact fun s hs => hn s (List.dropLast_subset _ hs)

/-- A file below two roots, one of them the root of all files, whose name ends in a slash; and a
name that leads from the root of all files to its path. -/
theorem resolve_inverse_slash :
    resolve "/x/a/.ice".toList [['/'], "/x/".toList] = .ok "a/".toList ∧
    probePath "/x/".toList "a/".toList = "/x/a/.ice".toList ∧
    resolve (probePath ['/'] "a/b".toList) [['/']] = .ok "a/b".toList := by
  have h : resolve "/x/a/.ice".toList [['/'], "/x/".toList] = .ok "a/".toList := rfl
  have hs : MostSpecific "/x/a/.ice".toList [['/'], "/x/".toList] "/x/".toList :=
    ⟨by decide, by decide, by decide⟩
  exact ⟨h, (resolve_inverse.1 _ _ _ (by decide) (by decide) h).2 _ hs,
    resolve_inverse.2 _ _ (by decide) (by decide)⟩

end LogicalName

end SliceIdl
