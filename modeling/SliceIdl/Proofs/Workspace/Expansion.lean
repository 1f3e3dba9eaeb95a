import SliceIdl.Proofs.Workspace.Listing

/-!
# What patterns stand for

Whether a pattern stands for a path is a matter of the two texts and of what is at the path: a
workspace in which a path is found gives it for every pattern for which any other workspace does.
-/

set_option autoImplicit false

namespace SliceIdl
open SliceIdl.Path FileTree

namespace Glob
open Workspace

variable {w w₁ w₂ : Workspace} {b : Bool} {d m n path pattern : Text} {q : Place}

theorem under_join (hd : d ≠ []) (hn : n ≠ []) : under d n = join d n := by
  rw [under, List.isEmpty_eq_false_iff.2 hd, List.isEmpty_eq_false_iff.2 hn]
  rfl

theorem join_nil (hn : isAbsolute n = false) : join [] n = n := by
  simp [join, hn]

theorem under_eq_join (hn : n ≠ []) (hr : isAbsolute n = false) : under d n = join d n := by
  by_cases hd : d = []
  · rw [hd, join_nil hr]
    rfl
  · exact under_join hd hn

theorem join_behind (hn : n ≠ []) (hs : '/' ∉ n) (hm : isAbsolute m = false) (before : Text) :
    join (before ++ n) m = before ++ (n ++ '/' :: m) := by
  rw [join_of_relative (List.append_ne_nil_of_right_ne_nil _ hn) hm, endsInSlash_append hn,
    endsInSlash_of_slashFree hs, if_neg Bool.false_ne_true, List.append_assoc]

theorem join_name (hn : n ≠ []) (hs : '/' ∉ n) (hm : isAbsolute m = false) :
    join n m = n ++ '/' :: m :=
  join_behind hn hs hm []

theorem join_join (hn : n ≠ []) (hs : '/' ∉ n) (hm : isAbsolute m = false) :
    join d (join n m) = join (join d n) m := by
  have hrel : isAbsolute n = false := isAbsolute_of_slashFree hs
  have hrel' : isAbsolute (n ++ '/' :: m) = false := by rw [isAbsolute_append hn, hrel]
  rw [join_name hn hs hm]
  by_cases hd : d = []
  · rw [hd, join_nil hrel', join_nil hrel, join_name hn hs hm]
  · rw [join_of_relative hd hrel', join_of_relative hd hrel]
    split
    · exact (join_behind hn hs hm d).symm
    · rw [List.append_cons, List.append_cons d '/' n, join_behind hn hs hm]

theorem join_ne_nil (d : Text) (hn : n ≠ []) : join d n ≠ [] := by
  rw [join]
  split
  · exact hn
  split
  · exact List.append_ne_nil_of_right_ne_nil d hn
  · exact List.append_ne_nil_of_right_ne_nil d (List.cons_ne_nil _ _)

theorem orDot_of_ne_nil (hd : d ≠ []) : orDot d = d :=
  if_neg (by simpa using hd)

theorem mem_list_of_mem_namesIn (h : n ∈ namesIn w d b) : n ∈ w.list (orDot d) := by
  rw [namesIn] at h
  split at h
  · exact List.mem_of_mem_filter h
  · exact h

theorem isName_of_mem_namesIn (hw : w.WellFormed) (h : n ∈ namesIn w d b) : IsName n := by
  obtain ⟨r, -, hs⟩ := mem_list.1 (mem_list_of_mem_namesIn h)
  exact (hw.tree.parent hs).2

theorem mem_namesIn (hn : IsName n) (hf : w.finds b (join d n)) : n ∈ namesIn w d b := by
  obtain ⟨q, hl, hs, hd⟩ := finds_iff.1 hf
  obtain ⟨r, hr, -, rfl⟩ := locate_join_name hn hl
  have hlist : n ∈ w.list (orDot d) := mem_list.2 ⟨r, hr, hs⟩
  rw [namesIn]
  split
  · next hb =>
    refine List.mem_filter.2 ⟨hlist, isDirectory_iff.2 ⟨_, ?_, hd hb⟩⟩
    have hrel : isAbsolute n = false := isAbsolute_of_slashFree hn.2.1
    rw [under_eq_join hn.1 hrel]
    by_cases hempty : d = []
    · rw [hempty, join_nil hrel] at hl
      rw [hempty]
      exact locate_dot_join hn hl
    · have hdot : orDot d = d := if_neg (by simpa using hempty)
      rwa [hdot]
  · exact hlist

theorem mem_below_succ {depth : Nat} : m ∈ below w b (depth + 1) d ↔
    ∃ n ∈ namesIn w d b, isHidden n = false ∧
      (m = n ∨ ∃ m' ∈ below w b depth (under d n), under n m' = m) := by
  simp only [below, List.mem_flatMap, List.mem_filter, List.mem_cons, List.mem_map,
    Bool.not_eq_eq_eq_not, Bool.not_true, and_assoc]

theorem relative_of_mem_below (hw : w.WellFormed) {depth : Nat} (h : m ∈ below w b depth d) :
    m ≠ [] ∧ isAbsolute m = false := by
  induction depth generalizing d m with
  | zero => cases h
  | succ depth ih =>
    obtain ⟨n, hn, -, hm⟩ := mem_below_succ.1 h
    obtain ⟨hne, hs, -, -⟩ := isName_of_mem_namesIn hw hn
    have hrel : isAbsolute n = false := isAbsolute_of_slashFree hs
    rcases hm with rfl | ⟨m', hm', rfl⟩
    · exact ⟨hne, hrel⟩
    · obtain ⟨hne', hrel'⟩ := ih hm'
      rw [under_eq_join hne' hrel', join_name hne hs hrel']
      exact ⟨by simp, by rw [isAbsolute_append hne, hrel]⟩

theorem below_of_below (h₁ : w₁.WellFormed) {depth : Nat} (h : m ∈ below w₁ b depth d)
    (hl : w₂.locate (join d m) = .ok q) (hs : (w₂.tree.find? q).isSome)
    (hq : b = true → w₂.tree.find? q = some .directory) :
    ∃ r, w₂.locate (orDot d) = .ok r ∧ w₂.tree.find? r = some .directory ∧ r.length < q.length ∧
      ∀ depth', q.length ≤ r.length + depth' → m ∈ below w₂ b depth' d := by
  -- The induction is on the names of the place, each of which is one level of depth.
  induction depth generalizing d m with
  | zero => cases h
  | succ depth ih =>
    obtain ⟨n, hn, hhidden, hm⟩ := mem_below_succ.1 h
    have hname := isName_of_mem_namesIn h₁ hn
    have hunder : under d n = join d n :=
      under_eq_join hname.1 (isAbsolute_of_slashFree hname.2.1)
    rcases hm with rfl | ⟨m', hm', rfl⟩
    · obtain ⟨r, hr, hd, rfl⟩ := locate_join_name hname hl
      rw [List.length_append, List.length_singleton]
      refine ⟨r, hr, hd, by omega, fun depth' hdepth => ?_⟩
      have hn₂ : m ∈ namesIn w₂ d b := mem_namesIn hname (finds_iff.2 ⟨_, hl, hs, hq⟩)
      cases depth' with
      | zero => omega
      | succ depth' => exact mem_below_succ.2 ⟨m, hn₂, hhidden, .inl rfl⟩
    · obtain ⟨hne, hrel⟩ := relative_of_mem_below h₁ hm'
      rw [under_eq_join hne hrel, join_join hname.1 hname.2.1 hrel, ← hunder] at hl
      obtain ⟨r', hr', hd', hlt, hbelow⟩ := ih hm' hl
      rw [hunder, orDot_of_ne_nil (join_ne_nil d hname.1)] at hr'
      obtain ⟨r, hr, hd, rfl⟩ := locate_join_name hname hr'
      have hn₂ : n ∈ namesIn w₂ d b :=
        mem_namesIn hname (finds_iff.2 ⟨_, hr', by rw [hd']; rfl, fun _ => hd'⟩)
      rw [List.length_append, List.length_singleton] at hlt hbelow
      refine ⟨r, hr, hd, by omega, fun depth' hdepth => ?_⟩
      cases depth' with
      | zero => omega
      | succ depth' =>
        have hm₂ : m' ∈ below w₂ b depth' (under d n) := hbelow depth' (by omega)
        exact mem_below_succ.2 ⟨n, hn₂, hhidden, .inr ⟨m', hm₂, rfl⟩⟩

theorem mem_allBelow (h₁ : w₁.WellFormed) (h₂ : w₂.WellFormed) (h : m ∈ allBelow w₁ b d)
    (hf : w₂.finds b (join d m)) : w₂.isDirectory (orDot d) ∧ m ∈ allBelow w₂ b d := by
  obtain ⟨q, hl, hs, hq⟩ := finds_iff.1 hf
  obtain ⟨r, hr, hd, -, hbelow⟩ := below_of_below h₁ h hl hs hq
  have hdeep := h₂.tree.length_le hs
  exact ⟨isDirectory_iff.2 ⟨r, hr, hd⟩, hbelow _ (by omega)⟩

theorem lastSegment_slashFree (p : Text) : '/' ∉ lastSegment p := by
  rw [lastSegment, List.mem_reverse]
  intro h
  have hall := List.all_takeWhile (p := (· != '/')) (l := p.reverse)
  rw [List.all_eq_true] at hall
  simpa using hall _ h

theorem isDirectory_of_finds_slash (h₂ : w₂.WellFormed) (hf : w₂.finds b (orDot (join d []))) :
    w₂.isDirectory (orDot d) := by
  by_cases hd : d = []
  · subst hd
    exact h₂.isDirectory_dot
  · have hne : join d [] ≠ [] := by
      rw [join_of_relative hd rfl]
      split <;> simp [hd]
    rw [orDot_of_ne_nil hne] at hf
    obtain ⟨q, hl, -⟩ := finds_iff.1 hf
    rw [orDot_of_ne_nil hd]
    exact isDirectory_of_locate_slash hd hl

theorem finds_join (hm : m ≠ []) (hf : w₂.finds b (orDot (join d m))) :
    w₂.finds b (join d m) := by
  rwa [orDot_of_ne_nil (join_ne_nil d hm)] at hf

theorem mem_matchesIn (h₁ : w₁.WellFormed) (h₂ : w₂.WellFormed) (hs : '/' ∉ pattern)
    (h : m ∈ matchesIn w₁ b d pattern) (hf : w₂.finds b (orDot (join d m))) :
    w₂.isDirectory (orDot d) ∧ m ∈ matchesIn w₂ b d pattern := by
  rw [matchesIn] at h ⊢
  split at h
  next hrecursive =>
    rw [if_pos hrecursive, List.mem_append]
    rcases List.mem_append.1 h with hself | hbelow
    · split at hself
      · cases List.mem_singleton.1 hself
        have hd := isDirectory_of_finds_slash h₂ hf
        refine ⟨hd, .inl ?_⟩
        rw [orDot] at hd
        split at hd
        next hempty => simp [hempty]
        next => simp [hd]
      · cases hself
    · obtain ⟨hm, -⟩ := relative_of_mem_below h₁ hbelow
      obtain ⟨hd, hm₂⟩ := mem_allBelow h₁ h₂ hbelow (finds_join hm hf)
      exact ⟨hd, .inr hm₂⟩
  next hrecursive =>
  rw [if_neg hrecursive]
  split at h
  next hmagic =>
    rw [if_pos hmagic]
    obtain ⟨hm, hmatch⟩ := List.mem_filter.1 h
    have hname := isName_of_mem_namesIn h₁ hm
    have hfound := finds_join hname.1 hf
    obtain ⟨q, hl, -⟩ := finds_iff.1 hfound
    obtain ⟨r, hr, hd, -⟩ := locate_join_name hname hl
    exact ⟨isDirectory_iff.2 ⟨r, hr, hd⟩, List.mem_filter.2 ⟨mem_namesIn hname hfound, hmatch⟩⟩
  next hmagic =>
  rw [if_neg hmagic]
  split at h
  next hempty =>
    rw [if_pos hempty]
    split at h
    · next hd₁ =>
      cases List.mem_singleton.1 h
      have hd := isDirectory_of_finds_slash h₂ hf
      refine ⟨hd, ?_⟩
      have hne : d ≠ [] := by
        rintro rfl
        cases hd₁
      rw [orDot_of_ne_nil hne] at hd
      rw [if_pos hd]
      exact List.mem_singleton_self _
    · cases h
  next hempty =>
  rw [if_neg hempty]
  split at h
  · cases List.mem_singleton.1 h
    have hne : m ≠ [] := by simpa using hempty
    have hfound := finds_join hne hf
    obtain ⟨q, hl, hsome, -⟩ := finds_iff.1 hfound
    obtain ⟨r, hr, hd, -⟩ := locate_join hne hs hl
    refine ⟨isDirectory_iff.2 ⟨r, hr, hd⟩, ?_⟩
    have hexists : w₂.pathExists (under d m) := by
      rw [under_eq_join hne (isAbsolute_of_slashFree hs), pathExists, entry?, hl]
      exact hsome
    rw [if_pos hexists]
    exact List.mem_singleton_self _
  · cases h

theorem of_mem_matchesIn (hw : w.WellFormed) (h : m ∈ matchesIn w b d pattern) :
    (isRecursive pattern ∧ (m = [] ∨ m ∈ allBelow w b d)) ∨
      (IsName m ∧ Wildcard.matches? pattern m) ∨ m = pattern := by
  rw [matchesIn] at h
  split at h
  next hrecursive =>
    refine .inl ⟨hrecursive, (List.mem_append.1 h).imp_left fun hself => ?_⟩
    split at hself
    · exact List.mem_singleton.1 hself
    · cases hself
  split at h
  next =>
    obtain ⟨hm, hmatch⟩ := List.mem_filter.1 h
    rw [Bool.and_eq_true] at hmatch
    exact .inr (.inl ⟨isName_of_mem_namesIn hw hm, hmatch.2⟩)
  split at h
  next hempty =>
    split at h
    · exact .inr (.inr ((List.mem_singleton.1 h).trans (List.isEmpty_iff.1 hempty).symm))
    · cases h
  · split at h
    · exact .inr (.inr (List.mem_singleton.1 h))
    · cases h

theorem relative_of_mem_matchesIn (hw : w.WellFormed) (hs : '/' ∉ pattern)
    (h : m ∈ matchesIn w b d pattern) : isAbsolute m = false := by
  obtain ⟨-, rfl | hbelow⟩ | ⟨hname, -⟩ | rfl := of_mem_matchesIn hw h
  · rfl
  · exact (relative_of_mem_below hw hbelow).2
  · exact isAbsolute_of_slashFree hname.2.1
  · exact isAbsolute_of_slashFree hs

theorem mem_magicPaths_iff (hw : w.WellFormed) : path ∈ magicPaths w b pattern ↔
    ∃ d m, m ∈ matchesIn w b d (lastSegment pattern) ∧ path = join d m ∧
      if hasMagic (parentPath pattern) ∧ (parentPath pattern).length < pattern.length then
        d ∈ magicPaths w true (parentPath pattern)
      else d = parentPath pattern := by
  have hempty : ¬ hasMagic [] := by decide
  rw [magicPaths]
  split
  next hparent =>
    rw [List.isEmpty_iff] at hparent
    simp only [hparent, hempty, Bool.false_eq_true, false_and, if_false]
    constructor
    · intro h
      have hrel := relative_of_mem_matchesIn hw (lastSegment_slashFree _) h
      exact ⟨[], path, h, (join_nil hrel).symm, rfl⟩
    · rintro ⟨_, m, h, rfl, rfl⟩
      rwa [join_nil (relative_of_mem_matchesIn hw (lastSegment_slashFree _) h)]
  next =>
    simp only [List.mem_flatMap, List.mem_map]
    constructor
    · rintro ⟨d, hd, m, hm, rfl⟩
      refine ⟨d, m, hm, rfl, ?_⟩
      split at hd
      next hmagic => rwa [if_pos hmagic]
      next hmagic => rwa [if_neg hmagic, ← List.mem_singleton]
    · rintro ⟨d, m, hm, rfl, hd⟩
      refine ⟨d, ?_, m, hm, rfl⟩
      split at hd
      next hmagic => rwa [dif_pos hmagic]
      next hmagic => rwa [dif_neg hmagic, List.mem_singleton]

theorem mem_magicPaths (h₁ : w₁.WellFormed) (h₂ : w₂.WellFormed)
    (h : path ∈ magicPaths w₁ b pattern) (hf : w₂.finds b (orDot path)) :
    path ∈ magicPaths w₂ b pattern := by
  induction hn : pattern.length using Nat.strongRecOn generalizing pattern path b with
  | ind n ih =>
    obtain ⟨d, m, hm, rfl, hd⟩ := (mem_magicPaths_iff h₁).1 h
    obtain ⟨hdir, hm₂⟩ := mem_matchesIn h₁ h₂ (lastSegment_slashFree _) hm hf
    refine (mem_magicPaths_iff h₂).2 ⟨d, m, hm₂, rfl, ?_⟩
    split at hd
    next hmagic =>
      rw [if_pos hmagic]
      exact ih _ (hn ▸ hmagic.2) hd hdir rfl
    next hmagic =>
      rw [if_neg hmagic]
      exact hd

theorem isFile_of_mem_files (h : path ∈ files w pattern) : w.isFile path := by
  rw [files] at h
  split at h
  · exact (List.mem_filter.1 (List.mem_mergeSort.1 h)).2
  · split at h
    · next hf =>
      cases List.mem_singleton.1 h
      exact hf
    · cases h

/-- The files a pattern stands for in one workspace it stands for in every other one in which they
are files. -/
theorem mem_files (h₁ : w₁.WellFormed) (h₂ : w₂.WellFormed) (h : path ∈ files w₁ pattern)
    (hf : w₂.isFile path) : path ∈ files w₂ pattern := by
  rw [files] at h ⊢
  split at h
  next hmagic =>
    rw [List.mem_mergeSort] at h
    obtain ⟨hm, -⟩ := List.mem_filter.1 h
    rw [if_pos hmagic, List.mem_mergeSort]
    obtain ⟨bytes, hread⟩ := isFile_iff.1 hf
    obtain ⟨q, hl, hq⟩ := read_iff.1 hread
    have hne : path ≠ [] := by
      rintro rfl
      cases hl
    have hfinds : w₂.finds false (orDot path) := by
      rw [orDot_of_ne_nil hne]
      exact finds_iff.2 ⟨q, hl, by rw [hq]; rfl, fun hb => absurd hb Bool.false_ne_true⟩
    exact List.mem_filter.2 ⟨mem_magicPaths h₁ h₂ hm hfinds, hf⟩
  next hmagic =>
    rw [if_neg hmagic]
    split at h
    · cases List.mem_singleton.1 h
      rw [if_pos hf]
      exact List.mem_singleton_self _
    · cases h

end Glob

end SliceIdl
