import SliceIdl.Proofs.Path.Destination

/-!
# What paths are made of

Joining, normalising and taking apart move slashes and dots about, and an extension adds its
letters. Every other character of a path comes from one of the texts that the path is made of.
-/

set_option autoImplicit false

namespace SliceIdl

namespace Path

variable {c : Char}

theorem mem_joined (hc : c ≠ '/') {ss : List Text} :
    c ∈ Text.joined ['/'] ss ↔ ∃ s ∈ ss, c ∈ s := by
  induction ss with
  | nil => simp [Text.joined]
  | cons s ss ih =>
    by_cases hss : ss = []
    · simp [hss, Text.joined]
    · rw [joined_cons hss, List.mem_append, List.mem_cons, ih, List.exists_mem_cons_iff]
      simp [hc]

theorem mem_segments (hc : c ≠ '/') {p : Text} : (∃ s ∈ segments p, c ∈ s) ↔ c ∈ p := by
  rw [← mem_joined hc, joined_segments]

theorem mem_join_of_relative (hc : c ≠ '/') (base : Text) {p : Text} (hp : isAbsolute p = false) :
    c ∈ join base p ↔ c ∈ base ∨ c ∈ p := by
  rw [join, if_neg (by simp [hp])]
  split <;> simp [hc]

theorem of_mem_join (hc : c ≠ '/') {base p : Text} (h : c ∈ join base p) : c ∈ base ∨ c ∈ p := by
  by_cases hp : isAbsolute p
  · rw [join, if_pos hp] at h
    exact .inr h
  · exact (mem_join_of_relative hc base (by simpa using hp)).1 h

theorem mem_foldl_join (hc : c ≠ '/') {ss : List Text} (hs : ∀ s ∈ ss, '/' ∉ s) (base : Text) :
    c ∈ ss.foldl join base ↔ c ∈ base ∨ ∃ s ∈ ss, c ∈ s := by
  induction ss generalizing base with
  | nil => simp
  | cons s ss ih =>
    have hrelative := isAbsolute_of_slashFree (hs s List.mem_cons_self)
    rw [List.foldl_cons, ih (fun t ht => hs t (List.mem_cons_of_mem _ ht)),
      mem_join_of_relative hc base hrelative, List.exists_mem_cons_iff, or_assoc]

theorem of_mem_orDot (hd : c ≠ '.') {p : Text} (h : c ∈ orDot p) : c ∈ p := by
  rw [orDot] at h
  split at h
  · exact absurd (List.mem_singleton.1 h) hd
  · exact h

theorem notMem_rootOf (hc : c ≠ '/') (p : Text) : c ∉ rootOf p := by
  rcases PathParts.rootOf_cases p with h | h | h <;> simp [h, hc]

theorem of_mem_normalised (hc : c ≠ '/') (hd : c ≠ '.') {p : Text} (h : c ∈ normalised p) :
    c ∈ p := by
  rcases List.mem_append.1 (of_mem_orDot hd h) with hr | hj
  · exact absurd hr (notMem_rootOf hc p)
  obtain ⟨s, hs, hcs⟩ := (mem_joined hc).1 hj
  rcases mem_collapse hs with hn | hp
  · cases hn
  · exact (mem_segments hc).1 ⟨s, (List.mem_filter.1 hp).1, hcs⟩

theorem of_mem_absolute (hc : c ≠ '/') (hd : c ≠ '.') {cwd p : Text} (h : c ∈ absolute cwd p) :
    c ∈ cwd ∨ c ∈ p :=
  of_mem_join hc (of_mem_normalised hc hd h)

end Path

open SliceIdl.Path

variable {c : Char}

namespace PathParts

theorem IsNormal.notMem_root {p : PathParts} (h : p.IsNormal) (hc : c ≠ '/') : c ∉ p.root := by
  rcases h.root with hr | hr | hr <;> simp [hr, hc]

theorem mem_toText (hc : c ≠ '/') {p : PathParts} {s : Text} (hs : s ∈ p.parts) (h : c ∈ s) :
    c ∈ p.toText := by
  have hmem : c ∈ p.root ++ Text.joined ['/'] p.parts :=
    List.mem_append_right _ ((mem_joined hc).2 ⟨s, hs, h⟩)
  rw [toText, orDot, if_neg]
  · exact hmem
  · rw [List.isEmpty_iff]
    exact List.ne_nil_of_mem hmem

theorem of_mem_toText (hc : c ≠ '/') (hd : c ≠ '.') {p : PathParts} (hr : c ∉ p.root)
    (h : c ∈ p.toText) : ∃ s ∈ p.parts, c ∈ s := by
  rcases List.mem_append.1 (of_mem_orDot hd h) with hroot | hj
  · exact absurd hroot hr
  · exact (mem_joined hc).1 hj

end PathParts

namespace LogicalName

theorem mem_probePath (hc : c ≠ '/') (he : c ∉ sourceExtension) (root name : Text) :
    c ∈ probePath root name ↔ c ∈ root ∨ c ∈ name := by
  have hname : c ∈ relativePath name ↔ c ∈ name := by
    rw [relativePath, List.mem_append, or_iff_left he, joinAll,
      mem_foldl_join hc (fun s hs => slashFree_of_mem_segments hs), mem_segments hc]
    simp
  rw [probePath, mem_join_of_relative hc root (isAbsolute_relativePath name), hname]

theorem of_mem_artifactPath (hc : c ≠ '/') (he : c ∉ artifactExtension) {dir : PathParts}
    {name s : Text} (hs : s ∈ (artifactPath dir name).parts) (h : c ∈ s) :
    (∃ t ∈ dir.parts, c ∈ t) ∨ c ∈ name := by
  rw [artifactPath_parts, List.append_assoc, List.mem_append, List.mem_append,
    List.mem_singleton] at hs
  rcases hs with hdir | hfolder | rfl
  · exact .inl ⟨s, hdir, h⟩
  · have hsegment := List.dropLast_subset _ (List.mem_filter.1 hfolder).1
    exact .inr ((mem_segments hc).1 ⟨s, hsegment, h⟩)
  · rw [artifactFile, List.mem_append, or_iff_left he, List.getLastD_eq_getLast?,
      List.getLast?_eq_some_getLast (segments_ne_nil name)] at h
    exact .inr ((mem_segments hc).1 ⟨_, List.getLast_mem _, h⟩)

theorem mem_of_resolve {path name : Text} {roots : List Text} (h : resolve path roots = .ok name)
    (hc : c ∈ name) : c ∈ path := by
  obtain ⟨root, -, hpath⟩ := resolve_eq_ok h
  rw [← hpath, List.mem_append, List.mem_append]
  exact .inr (.inl hc)

end LogicalName

end SliceIdl
