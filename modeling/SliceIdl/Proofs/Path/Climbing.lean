import SliceIdl.Proofs.Path.Destination

/-!
# Names that climb

A name climbs if at some point along its folders more of them led up than down. Only such a name
leads out of the directory that it is followed from. The name of an input file never climbs, since
the path that it is taken from is normalised; a name that an include spells can.
-/

set_option autoImplicit false

namespace SliceIdl
open SliceIdl.Path FileTree

namespace LogicalName

/-- Whether folders that are followed from some depth never lead above where it is counted from. -/
def staysBelow : Nat → List Text → Bool
  | _, [] => true
  | 0, s :: rest => s != parentSegment && staysBelow 1 rest
  | depth + 1, s :: rest =>
    if s = parentSegment then staysBelow depth rest else staysBelow (depth + 2) rest

/-- At some point along the folders of the name more of them led up than down. -/
def Climbs (name : Text) : Prop :=
  staysBelow 0 (folders name) = false

instance : DecidablePred Climbs :=
  fun _ => inferInstanceAs (Decidable (_ = _))

theorem staysBelow_cons {depth : Nat} {s : Text} (hs : s ≠ parentSegment) (rest : List Text) :
    staysBelow depth (s :: rest) = staysBelow (depth + 1) rest := by
  cases depth <;> simp [staysBelow, hs]

theorem staysBelow_of_down {names : List Text} (h : parentSegment ∉ names) (depth : Nat) :
    staysBelow depth names = true := by
  induction names generalizing depth with
  | nil => cases depth <;> rfl
  | cons s rest ih =>
    rw [List.mem_cons, not_or] at h
    rw [staysBelow_cons (Ne.symm h.1), ih h.2]

theorem staysBelow_upper {upper names : List Text} (hu : upper <+: names) {depth : Nat}
    (h : staysBelow depth names = true) : staysBelow depth upper = true := by
  induction upper generalizing names depth with
  | nil => cases depth <;> rfl
  | cons s upper ih =>
    obtain ⟨rest, rfl⟩ := hu
    rw [List.cons_append] at h
    by_cases hs : s = parentSegment
    · cases depth with
      | zero => simp [staysBelow, hs] at h
      | succ depth =>
        rw [staysBelow, if_pos hs] at h ⊢
        exact ih (List.prefix_append ..) h
    · rw [staysBelow_cons hs] at h ⊢
      exact ih (List.prefix_append ..) h

theorem prefix_descend {p : Place} {names : List Text} (hc : currentSegment ∉ names)
    {down : List Text} (h : staysBelow down.length names = true) :
    p <+: descend (p ++ down) names := by
  induction names generalizing down with
  | nil => exact List.prefix_append ..
  | cons s rest ih =>
    rw [List.mem_cons, not_or] at hc
    rw [descend, if_neg (Ne.symm hc.1)]
    by_cases hs : s = parentSegment
    · rw [if_pos hs]
      obtain rfl | ⟨inner, last, rfl⟩ := List.eq_nil_or_concat down
      · simp [staysBelow, hs] at h
      · rw [List.concat_eq_append, List.length_append, List.length_singleton, staysBelow,
          if_pos hs] at h
        rw [List.concat_eq_append, ← List.append_assoc, List.dropLast_concat]
        exact ih hc.2 h
    · rw [if_neg hs, List.append_assoc]
      rw [staysBelow_cons hs] at h
      exact ih hc.2 (by rwa [List.length_append, List.length_singleton])

theorem currentSegment_notMem_folders (name : Text) : currentSegment ∉ folders name := by
  intro h
  cases (List.mem_filter.1 h).2

theorem prefix_descend_folders {name : Text} (h : ¬ Climbs name) {upper : List Text}
    (hu : upper <+: folders name) (p : Place) : p <+: descend p upper := by
  rw [Climbs, Bool.not_eq_false] at h
  have hc : currentSegment ∉ upper := fun hm => currentSegment_notMem_folders name (hu.subset hm)
  have hd : p <+: descend (p ++ []) upper := prefix_descend hc (staysBelow_upper hu h)
  rwa [List.append_nil] at hd

theorem parentSegment_notMem_collapse {up ss : List Text} (h : parentSegment ∉ up) :
    parentSegment ∉ collapse true up ss := by
  induction ss generalizing up with
  | nil => simpa [collapse] using h
  | cons s ss ih =>
    have hpush (hs : s ≠ parentSegment) : parentSegment ∉ s :: up := by
      rw [List.mem_cons, not_or]
      exact ⟨Ne.symm hs, h⟩
    cases up with
    | nil =>
      rw [collapse]
      split
      · exact ih h
      · next hs => exact ih (hpush hs)
    | cons last up =>
      rw [List.mem_cons, not_or] at h
      rw [collapse]
      split
      · rw [if_neg (Ne.symm h.1)]
        exact ih h.2
      · next hs => exact ih (hpush hs)

theorem parentSegment_notMem_normalised {p : Text} (h : isAbsolute p) :
    parentSegment ∉ segments (normalised p) := by
  generalize hss : collapse (isAbsolute p) [] ((segments p).filter isProper) = ss
  have hparent : parentSegment ∉ ss := by
    rw [← hss, h]
    exact parentSegment_notMem_collapse List.not_mem_nil
  have hslash : ∀ s ∈ ss, '/' ∉ s := by
    intro s hs
    rcases mem_collapse (hss ▸ hs) with hn | hp
    · cases hn
    · exact slashFree_of_mem_segments (List.mem_of_mem_filter hp)
  have hsegments : parentSegment ∉ segments (Text.joined ['/'] ss) := by
    by_cases hne : ss = []
    · subst hne
      decide
    · rwa [segments_joined hne hslash]
  have hempty : parentSegment ≠ [] := by decide
  rw [normalised, hss]
  rcases rootOf_of_isAbsolute h with hr | hr <;>
    simpa [hr, orDot, segments_slash, hempty] using hsegments

theorem parentSegment_notMem_of_resolve {cwd path name : Text} {roots : List Text}
    (hcwd : isAbsolute cwd) (h : resolve (absolute cwd path) roots = .ok name) :
    parentSegment ∉ (segments name).dropLast := by
  obtain ⟨root, -, hpath⟩ := resolve_eq_ok h
  obtain ⟨before, hb⟩ := exists_rootPrefix root
  have hparent : parentSegment ∉ segments (absolute cwd path) :=
    parentSegment_notMem_normalised (isAbsolute_join_absolute hcwd path)
  rw [← hpath, hb, List.append_assoc, List.singleton_append, segments_append_slash,
    List.mem_append, not_or] at hparent
  rw [← dropLast_segments_append sourceExtension_slashFree]
  exact fun hm => hparent.2 (List.dropLast_subset _ hm)

theorem not_climbs_of_resolve {cwd path name : Text} {roots : List Text} (hcwd : isAbsolute cwd)
    (h : resolve (absolute cwd path) roots = .ok name) : ¬ Climbs name := by
  have hfolders : parentSegment ∉ folders name :=
    fun hm => parentSegment_notMem_of_resolve hcwd h (List.mem_of_mem_filter hm)
  rw [Climbs, staysBelow_of_down hfolders]
  exact Bool.noConfusion

end LogicalName

end SliceIdl
