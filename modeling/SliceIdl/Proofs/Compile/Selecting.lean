import Mathlib.Data.List.Dedup
import SliceIdl.Compile.Inputs
import SliceIdl.Workspace.Glob

/-!
# What is selected

A selection takes one match after the other, whichever pattern it comes from, and keeps the first
one with each key that is not excluded. As matches come in order, the same matches give the same
selection, however often each of them comes.
-/

set_option autoImplicit false

namespace SliceIdl

namespace Text

theorem upTo_cons {c d : Char} {s t : Text} :
    upTo (c :: s) (d :: t) = true ↔ c < d ∨ c = d ∧ upTo s t = true := by
  rw [upTo, Bool.or_eq_true, Bool.and_eq_true, decide_eq_true_iff, beq_iff_eq]

theorem upTo_trans {s t u : Text} (h : upTo s t = true) (h' : upTo t u = true) :
    upTo s u = true := by
  induction s generalizing t u with
  | nil => rw [upTo]
  | cons c s ih =>
    cases t with
    | nil => cases h
    | cons d t =>
      cases u with
      | nil => cases h'
      | cons e u =>
        rw [upTo_cons] at h h' ⊢
        rcases h with hlt | ⟨rfl, h⟩
        · rcases h' with hlt' | ⟨rfl, -⟩
          · exact .inl (Char.lt_trans hlt hlt')
          · exact .inl hlt
        · rcases h' with hlt' | ⟨rfl, h'⟩
          · exact .inl hlt'
          · exact .inr ⟨rfl, ih h h'⟩

theorem upTo_total (s t : Text) : upTo s t = true ∨ upTo t s = true := by
  induction s generalizing t with
  | nil => exact .inl (by rw [upTo])
  | cons c s ih =>
    cases t with
    | nil => exact .inr (by rw [upTo])
    | cons d t =>
      rw [upTo_cons, upTo_cons]
      by_cases hcd : c = d
      · exact (ih t).imp (fun h => .inr ⟨hcd, h⟩) fun h => .inr ⟨hcd.symm, h⟩
      · by_cases hlt : c < d
        · exact .inl (.inl hlt)
        · have hle : d ≤ c := Char.not_lt.1 hlt
          exact .inr (.inl (Char.not_le.1 fun hge => hcd (Char.le_antisymm hge hle)))

theorem upTo_antisymm {s t : Text} (h : upTo s t = true) (h' : upTo t s = true) : s = t := by
  induction s generalizing t with
  | nil =>
    cases t with
    | nil => rfl
    | cons d t => cases h'
  | cons c s ih =>
    cases t with
    | nil => cases h
    | cons d t =>
      rw [upTo_cons] at h h'
      rcases h with hlt | ⟨rfl, h⟩
      · rcases h' with hlt' | ⟨rfl, -⟩
        · exact absurd hlt' (Char.lt_asymm hlt)
        · exact absurd hlt (Char.lt_irrefl d)
      · rcases h' with hlt' | ⟨-, h'⟩
        · exact absurd hlt' (Char.lt_irrefl c)
        · rw [ih h h']

theorem pairwise_mergeSort (ts : List Text) :
    (ts.mergeSort upTo).Pairwise fun s t => upTo s t = true := by
  have htotal : ∀ s t, (upTo s t || upTo t s) = true := by
    intro s t
    rw [Bool.or_eq_true]
    exact upTo_total s t
  have htrans : ∀ s t u, upTo s t = true → upTo t u = true → upTo s u = true :=
    fun _ _ _ => upTo_trans
  exact List.pairwise_mergeSort htrans htotal ts

variable {α : Type} {f : α → Text → α}

theorem foldl_dedup (hf : ∀ a t, f (f a t) t = f a t) {ts : List Text}
    (h : ts.Pairwise fun s t => upTo s t = true) (a : α) : ts.dedup.foldl f a = ts.foldl f a := by
  induction ts generalizing a with
  | nil => rfl
  | cons t ts ih =>
    obtain ⟨hfirst, hrest⟩ := List.pairwise_cons.1 h
    by_cases ht : t ∈ ts
    · rw [List.dedup_cons_of_mem ht, ih hrest, List.foldl_cons]
      cases ts with
      | nil => cases ht
      | cons u ts =>
        have hu : u = t := by
          rcases List.mem_cons.1 ht with rfl | hlater
          · rfl
          · exact upTo_antisymm (List.rel_of_pairwise_cons hrest hlater)
              (hfirst u List.mem_cons_self)
        rw [hu, List.foldl_cons, List.foldl_cons, hf]
    · rw [List.dedup_cons_of_notMem ht, List.foldl_cons, List.foldl_cons, ih hrest]

theorem foldl_eq_of_mem_iff (hf : ∀ a t, f (f a t) t = f a t) {ts us : List Text}
    (ht : ts.Pairwise fun s t => upTo s t = true) (hu : us.Pairwise fun s t => upTo s t = true)
    (h : ∀ t, t ∈ ts ↔ t ∈ us) (a : α) : ts.foldl f a = us.foldl f a := by
  have hperm : ts.dedup.Perm us.dedup :=
    (List.perm_ext_iff_of_nodup (List.nodup_dedup ts) (List.nodup_dedup us)).2
      fun t => by rw [List.mem_dedup, List.mem_dedup, h]
  have heq : ts.dedup = us.dedup :=
    List.Perm.eq_of_pairwise (fun _ _ _ _ => upTo_antisymm)
      (ht.sublist (List.dedup_sublist ts)) (hu.sublist (List.dedup_sublist us)) hperm
  rw [← foldl_dedup hf ht, heq, foldl_dedup hf hu]

end Text

theorem Glob.files_pairwise (w : Workspace) (pattern : Text) :
    (files w pattern).Pairwise fun s t => Text.upTo s t = true := by
  rw [files]
  split
  · exact Text.pairwise_mergeSort _
  · split
    · exact List.pairwise_singleton _ _
    · exact List.Pairwise.nil

namespace Selection

variable {expand expand' : Text → List Text} {key : Text → Text} {excluded : List Text}

def keep (key : Text → Text) (excluded paths : List Text) (path : Text) : List Text :=
  if key path ∈ excluded then paths
  else if key path ∈ paths.map key then paths
  else paths ++ [path]

theorem add_paths (s : Selection) (path : Text) :
    (add key excluded s path).paths = keep key excluded s.paths path := by
  rw [add, keep]
  split
  · rfl
  · split
    · rfl
    · rfl

/-- The matches of all patterns are taken one after the other. -/
theorem ofPatterns_paths (patterns excludes : List Text) :
    (ofPatterns expand key patterns excludes).paths =
      (patterns.flatMap expand).foldl (keep key (excludedKeys expand key excludes)) [] := by
  rw [ofPatterns]
  generalize excludedKeys expand key excludes = excluded
  have hadd (paths : List Text) (s : Selection) :
      (paths.foldl (add key excluded) s).paths = paths.foldl (keep key excluded) s.paths := by
    induction paths generalizing s with
    | nil => rfl
    | cons path paths ih => rw [List.foldl_cons, List.foldl_cons, ih, add_paths]
  have hpattern (s : Selection) (pattern : Text) :
      (addPattern expand key excluded s pattern).paths =
        (expand pattern).foldl (keep key excluded) s.paths := by
    rw [addPattern]
    split
    next hnone => rw [hnone, List.foldl_nil]
    next hsome => rw [hadd, hsome]
  have hpatterns (s : Selection) :
      (patterns.foldl (addPattern expand key excluded) s).paths =
        (patterns.flatMap expand).foldl (keep key excluded) s.paths := by
    induction patterns generalizing s with
    | nil => rfl
    | cons pattern patterns ih =>
      rw [List.foldl_cons, List.flatMap_cons, List.foldl_append, ih, hpattern]
  exact hpatterns empty

theorem mem_foldl_keep {paths acc : List Text} {q : Text}
    (h : q ∈ paths.foldl (keep key excluded) acc) : q ∈ acc ∨ q ∈ paths := by
  induction paths generalizing acc with
  | nil => exact .inl h
  | cons path paths ih =>
    rcases ih h with hacc | hlater
    · rw [keep] at hacc
      split at hacc
      · exact .inl hacc
      split at hacc
      · exact .inl hacc
      · rcases List.mem_append.1 hacc with hacc | hpath
        · exact .inl hacc
        · exact .inr (List.mem_cons.2 (.inl (List.mem_singleton.1 hpath)))
    · exact .inr (List.mem_cons_of_mem _ hlater)

theorem mem_ofPatterns {patterns excludes : List Text} {q : Text}
    (h : q ∈ (ofPatterns expand key patterns excludes).paths) :
    ∃ pattern ∈ patterns, q ∈ expand pattern := by
  rw [ofPatterns_paths] at h
  exact List.mem_flatMap.1 ((mem_foldl_keep h).resolve_left List.not_mem_nil)

theorem foldl_keep_nodup {acc : List Text} (h : (acc.map key).Nodup) (paths : List Text) :
    ((paths.foldl (keep key excluded) acc).map key).Nodup := by
  induction paths generalizing acc with
  | nil => exact h
  | cons path paths ih =>
    refine ih ?_
    rw [keep]
    split
    · exact h
    · split
      · exact h
      · next hnew =>
        rw [List.map_append, List.nodup_append]
        have hd : ∀ k ∈ acc.map key, ∀ k' ∈ [path].map key, k ≠ k' := by
          rintro k hk _ hp rfl
          rw [List.map_singleton, List.mem_singleton] at hp
          exact hnew (hp ▸ hk)
        exact ⟨h, by simp, hd⟩

theorem ofPatterns_nodup (patterns excludes : List Text) :
    ((ofPatterns expand key patterns excludes).paths.map key).Nodup := by
  rw [ofPatterns_paths]
  have hnone : (([] : List Text).map key).Nodup := List.nodup_nil
  exact foldl_keep_nodup hnone _

theorem keep_keep (acc : List Text) (path : Text) :
    keep key excluded (keep key excluded acc path) path = keep key excluded acc path := by
  by_cases hx : key path ∈ excluded
  · simp [keep, hx]
  · by_cases hold : key path ∈ acc.map key
    · simp only [keep, if_neg hx, if_pos hold]
    · have hnew : key path ∈ (acc ++ [path]).map key := by simp
      simp only [keep, if_neg hx, if_neg hold, if_pos hnew]

theorem ofPatterns_congr {patterns excludes : List Text}
    (hsorted : ∀ pattern, (expand pattern).Pairwise fun s t => Text.upTo s t = true)
    (hsorted' : ∀ pattern, (expand' pattern).Pairwise fun s t => Text.upTo s t = true)
    (hsame : ∀ pattern ∈ patterns, ∀ path, path ∈ expand pattern ↔ path ∈ expand' pattern)
    (hexcluded : ∀ pattern ∈ patterns, ∀ path ∈ expand pattern,
      key path ∈ excludedKeys expand key excludes ↔ key path ∈ excludedKeys expand' key excludes) :
    (ofPatterns expand key patterns excludes).paths =
      (ofPatterns expand' key patterns excludes).paths := by
  rw [ofPatterns_paths, ofPatterns_paths]
  generalize excludedKeys expand key excludes = excluded at hexcluded ⊢
  generalize excludedKeys expand' key excludes = excluded' at hexcluded ⊢
  generalize ([] : List Text) = acc
  induction patterns generalizing acc with
  | nil => rfl
  | cons pattern patterns ih =>
    rw [List.flatMap_cons, List.flatMap_cons, List.foldl_append, List.foldl_append]
    have hmatches : (expand pattern).foldl (keep key excluded) acc =
        (expand' pattern).foldl (keep key excluded') acc := by
      calc (expand pattern).foldl (keep key excluded) acc
          = (expand pattern).foldl (keep key excluded') acc := by
            refine List.foldl_ext _ _ _ fun acc path hpath => ?_
            simp only [keep, hexcluded pattern List.mem_cons_self path hpath]
        _ = (expand' pattern).foldl (keep key excluded') acc :=
            Text.foldl_eq_of_mem_iff keep_keep (hsorted pattern) (hsorted' pattern)
              (hsame pattern List.mem_cons_self) acc
    rw [hmatches]
    exact ih (fun p hp => hsame p (List.mem_cons_of_mem _ hp))
      (fun p hp => hexcluded p (List.mem_cons_of_mem _ hp)) _

end Selection

end SliceIdl
