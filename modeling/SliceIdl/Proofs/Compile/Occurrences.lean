import Mathlib.Data.List.Induction
import SliceIdl.Proofs.Compile.Outcome
import SliceIdl.Proofs.Workspace.Expansion

/-!
# Which matches are selected

Taking one match after the other is the same as looking at all of them in a row: a match is selected
if and only if its key is not excluded and no match in front of it has the same key. So each key
that is not excluded is still there, each only once, and excluding more drops what has an excluded
key and changes nothing else. That the matches are those of patterns and the keys absolute paths
does not matter for this.
-/

set_option autoImplicit false

namespace SliceIdl
open SliceIdl.Path

namespace Selection

variable {expand : Text → List Text} {key : Text → Text} {excluded entries : List Text}

/-- The entries whose keys are not excluded and that are the first ones with their keys. -/
def firsts (key : Text → Text) (excluded entries : List Text) : List Text :=
  (entries.zipIdx.filter fun e =>
    key e.1 ∉ excluded ∧ key e.1 ∉ (entries.take e.2).map key).map Prod.fst

theorem firsts_concat (key : Text → Text) (excluded entries : List Text) (entry : Text) :
    firsts key excluded (entries ++ [entry]) = firsts key excluded entries ++
      if key entry ∉ excluded ∧ key entry ∉ entries.map key then [entry] else [] := by
  have hearlier : ∀ e ∈ entries.zipIdx,
      (entries ++ [entry]).take e.2 = entries.take e.2 := by
    intro e he
    exact List.take_append_of_le_length (Nat.le_of_lt (List.snd_lt_of_mem_zipIdx he))
  rw [firsts, List.zipIdx_append, List.filter_append, List.map_append, firsts]
  congr 1
  · congr 1
    refine List.filter_congr fun e he => ?_
    rw [hearlier e he]
  · by_cases h : key entry ∉ excluded ∧ key entry ∉ entries.map key
    · simp [h.1, h.2, -List.mem_map]
    · rw [if_neg h, List.zipIdx_singleton, List.filter_singleton]
      simp [h, -List.mem_map]

theorem key_mem_firsts {k : Text} (hk : k ∉ excluded) :
    k ∈ (firsts key excluded entries).map key ↔ k ∈ entries.map key := by
  induction entries using List.reverseRecOn with
  | nil => rfl
  | append_singleton entries entry ih =>
    rw [firsts_concat, List.map_append, List.map_append, List.mem_append, List.mem_append, ih,
      List.map_singleton, List.mem_singleton]
    constructor
    · rintro (hold | hnew)
      · exact .inl hold
      · split at hnew
        · exact .inr (List.mem_singleton.1 hnew)
        · cases hnew
    · rintro (hold | rfl)
      · exact .inl hold
      · by_cases hold : key entry ∈ entries.map key
        · exact .inl hold
        · rw [if_pos ⟨hk, hold⟩]
          exact .inr List.mem_cons_self

theorem foldl_keep_eq_firsts (key : Text → Text) (excluded entries : List Text) :
    entries.foldl (keep key excluded) [] = firsts key excluded entries := by
  induction entries using List.reverseRecOn with
  | nil => rfl
  | append_singleton entries entry ih =>
    rw [List.foldl_append, ih, List.foldl_cons, List.foldl_nil, firsts_concat, keep]
    by_cases hx : key entry ∈ excluded
    · rw [if_pos hx, if_neg fun h => h.1 hx, List.append_nil]
    · rw [if_neg hx]
      by_cases hold : key entry ∈ entries.map key
      · rw [if_pos ((key_mem_firsts hx).2 hold), if_neg fun h => h.2 hold, List.append_nil]
      · rw [if_neg fun h => hold ((key_mem_firsts hx).1 h), if_pos ⟨hx, hold⟩]

theorem firsts_append (key : Text → Text) (excluded more entries : List Text) :
    firsts key (excluded ++ more) entries =
      (firsts key excluded entries).filter fun entry => key entry ∉ more := by
  rw [firsts, firsts, List.filter_map, List.filter_filter]
  congr 1
  refine List.filter_congr fun e _ => ?_
  simp only [Function.comp_apply, List.mem_append, not_or, ← Bool.decide_and]
  exact decide_eq_decide.2 (by tauto)

def warnings (events : List InputEvent) : List Record :=
  (events.map InputEvent.record).filter fun r => r.level = .warning

theorem warnings_append (events events' : List InputEvent) :
    warnings (events ++ events') = warnings events ++ warnings events' := by
  rw [warnings, List.map_append, List.filter_append, warnings, warnings]

theorem warnings_foldl_add (s : Selection) (paths : List Text) :
    warnings (paths.foldl (add key excluded) s).events = warnings s.events := by
  induction paths generalizing s with
  | nil => rfl
  | cons path paths ih =>
    rw [List.foldl_cons, ih, add]
    split
    · rw [warnings_append]
      exact List.append_nil _
    · split
      · rfl
      · rfl

theorem warnings_foldl_addPattern (s : Selection) (patterns : List Text) :
    warnings (patterns.foldl (addPattern expand key excluded) s).events = warnings s.events ++
      (patterns.filter fun p => (expand p).isEmpty).map fun p => (InputEvent.unmatched p).record := by
  induction patterns generalizing s with
  | nil => simp
  | cons pattern patterns ih =>
    rw [List.foldl_cons, ih, addPattern]
    cases hm : expand pattern with
    | nil =>
      rw [List.filter_cons_of_pos (by simp [hm]), warnings_append, List.append_assoc]
      rfl
    | cons path paths => rw [List.filter_cons_of_neg (by simp [hm]), warnings_foldl_add]

/-- What it means that a selection is that of some patterns without others. -/
structure Selects (expand : Text → List Text) (key : Text → Text) (patterns excludes : List Text)
    (s : Selection) : Prop where
  paths : s.paths = firsts key ((excludes.flatMap expand).map key) (patterns.flatMap expand)
  distinct : (s.paths.map key).Nodup
  represented : ∀ path ∈ patterns.flatMap expand, key path ∉ (excludes.flatMap expand).map key →
    key path ∈ s.paths.map key
  warned : (s.events.map InputEvent.record).filter (fun r => r.level = .warning) =
    (patterns.filter fun p => (expand p).isEmpty).map fun p =>
      ⟨.warning, "driver.globs".toList, p ++ ": matched no files".toList⟩

theorem ofPatterns_eq_firsts (expand : Text → List Text) (key : Text → Text)
    (patterns excludes : List Text) :
    (ofPatterns expand key patterns excludes).paths =
      firsts key ((excludes.flatMap expand).map key) (patterns.flatMap expand) := by
  rw [ofPatterns_paths, foldl_keep_eq_firsts, excludedKeys]

theorem ofPatterns_selects (expand : Text → List Text) (key : Text → Text)
    (patterns excludes : List Text) :
    Selects expand key patterns excludes (ofPatterns expand key patterns excludes) where
  paths := ofPatterns_eq_firsts ..
  distinct := ofPatterns_nodup ..
  represented path hp hx := by
    rw [ofPatterns_eq_firsts, key_mem_firsts hx]
    exact List.mem_map_of_mem hp
  warned := warnings_foldl_addPattern empty patterns

theorem ofPatterns_append_excludes (expand : Text → List Text) (key : Text → Text)
    (patterns excludes more : List Text) :
    (ofPatterns expand key patterns (excludes ++ more)).paths =
      (ofPatterns expand key patterns excludes).paths.filter fun path =>
        key path ∉ (more.flatMap expand).map key := by
  rw [ofPatterns_eq_firsts, ofPatterns_eq_firsts, List.flatMap_append, List.map_append,
    firsts_append]

end Selection

namespace Compilation

theorem selectInputs_records {w : Workspace} {patterns excludes : List Text}
    (h : (excludes ++ patterns).all Glob.isExpandable) :
    (selectInputs w patterns excludes).records =
      (select w patterns excludes).events.map InputEvent.record := by
  rw [List.all_append, Bool.and_eq_true] at h
  have hall : patterns.takeWhile Glob.isExpandable = patterns :=
    List.takeWhile_eq_self_iff.2 (List.all_eq_true.1 h.2)
  simp [selectInputs, h.1, hall]

/-- Of the matches of patterns, however patterns are expanded, those are selected whose absolute
paths are not excluded and are there for the first time. A command expands its patterns to the files
that they stand for, in order, unless one of them cannot be expanded at all. -/
theorem selectInputs_selects (w : Workspace) (patterns excludes : List Text) :
    (∀ expand : Text → List Text,
      Selection.Selects expand (absolute w.cwdPath) patterns excludes
        (.ofPatterns expand (absolute w.cwdPath) patterns excludes) ∧
      ∀ more, (Selection.ofPatterns expand (absolute w.cwdPath) patterns (excludes ++ more)).paths =
        (Selection.ofPatterns expand (absolute w.cwdPath) patterns excludes).paths.filter fun path =>
          absolute w.cwdPath path ∉ (more.flatMap expand).map (absolute w.cwdPath)) ∧
    Selection.Selects (Glob.files w) (absolute w.cwdPath) patterns excludes
      (select w patterns excludes) ∧
    (∀ pattern, (Glob.files w pattern).Pairwise (fun s t => Text.upTo s t = true) ∧
      ∀ path ∈ Glob.files w pattern, w.isFile path) ∧
    (selectInputs w patterns excludes).result =
      (if (excludes ++ patterns).all Glob.isExpandable then .ok (select w patterns excludes).paths
      else .error unexpandable) ∧
    ((excludes ++ patterns).all Glob.isExpandable → (selectInputs w patterns excludes).records =
      (select w patterns excludes).events.map InputEvent.record) := by
  refine ⟨fun expand => ⟨?selects, ?more⟩, Selection.ofPatterns_selects .., fun pattern => ?files,
    selectInputs_result .., selectInputs_records⟩
  case selects => exact Selection.ofPatterns_selects ..
  case more => exact fun more => Selection.ofPatterns_append_excludes ..
  case files => exact ⟨Glob.files_pairwise w pattern, fun path => Glob.isFile_of_mem_files⟩

namespace Respelled

/-- Two files in the current directory, and a directory beside them. -/
def workspace : Workspace where
  tree := ⟨[([['w']], .directory), ([['w'], "a.ice".toList], .file (encodeText [])),
    ([['w'], "b.ice".toList], .file (encodeText [])), ([['w'], ['d']], .directory)]⟩
  cwd := [['w']]

def patterns : List Text :=
  ["./a.ice".toList, "b.ice".toList, "gone.ice".toList, "/w/a.ice".toList]

def excludes : List Text :=
  ["d/../b.ice".toList]

end Respelled

/-- A file that is spelled in two ways is selected once, and one that is excluded in another spelling
is not. -/
theorem selectInputs_selects_respelled :
    (Respelled.excludes ++ Respelled.patterns).all Glob.isExpandable ∧
    (selectInputs Respelled.workspace Respelled.patterns Respelled.excludes).result =
      .ok ["./a.ice".toList] ∧
    (selectInputs Respelled.workspace Respelled.patterns Respelled.excludes).records =
      [⟨.debug, "driver.globs".toList, "b.ice: excluded".toList⟩,
        ⟨.warning, "driver.globs".toList, "gone.ice: matched no files".toList⟩] := by
  obtain ⟨-, hselects, -, hresult, hrecords⟩ :=
    selectInputs_selects Respelled.workspace Respelled.patterns Respelled.excludes
  have hall : (Respelled.excludes ++ Respelled.patterns).all Glob.isExpandable := by decide
  rw [if_pos hall, hselects.paths] at hresult
  refine ⟨hall, hresult.trans ?_, (hrecords hall).trans ?_⟩
  · decide
  · decide

end Compilation

end SliceIdl
