import SliceIdl.Proofs.Workspace.Rewriting
import SliceIdl.Proofs.Workspace.Places

/-!
# Names in directories

A path that leads to a name in a directory leads to that directory first. What is listed in a
directory is what is found there, with and without a dot in front of it.
-/

set_option autoImplicit false

namespace SliceIdl
open SliceIdl.Path FileTree

namespace Workspace

variable {w : Workspace} {d n path : Text} {q : Place}

def finds (w : Workspace) (directoriesOnly : Bool) (path : Text) : Bool :=
  if directoriesOnly then w.isDirectory path else w.pathExists path

theorem finds_iff {b : Bool} : w.finds b path ↔ ∃ q, w.locate path = .ok q ∧
    (w.tree.find? q).isSome ∧ (b = true → w.tree.find? q = some .directory) := by
  cases b with
  | true =>
    rw [finds, if_pos rfl, isDirectory_iff]
    constructor
    · rintro ⟨q, hl, hd⟩
      exact ⟨q, hl, by rw [hd]; rfl, fun _ => hd⟩
    · rintro ⟨q, hl, -, hd⟩
      exact ⟨q, hl, hd rfl⟩
  | false =>
    rw [finds, if_neg Bool.false_ne_true, pathExists, entry?]
    cases w.locate path with
    | error e => simp
    | ok q => simp

theorem mem_list : n ∈ w.list path ↔
    ∃ r, w.locate path = .ok r ∧ (w.tree.find? (r ++ [n])).isSome := by
  rw [list]
  cases w.locate path with
  | error e => simp
  | ok r => simp [mem_children]

theorem steps_join_name (hn : n ≠ []) (hs : '/' ∉ n) :
    steps (join d n) = (segments d).filter (fun s => !s.isEmpty) ++ [n] := by
  have hempty := List.isEmpty_eq_false_iff.2 hn
  rw [steps_join (isAbsolute_of_slashFree hs) hn, steps, endsInSlash_of_slashFree hs,
    segments_of_slashFree hs, List.filter_singleton, hempty]
  rfl

theorem origin_join (hs : '/' ∉ n) : w.origin (join d n) = w.origin (orDot d) := by
  have hdot : isAbsolute (orDot d) = isAbsolute d := by cases d <;> rfl
  rw [origin, origin, isAbsolute_join (isAbsolute_of_slashFree hs), hdot]

theorem prefix_join (hd : d ≠ []) (hn : isAbsolute n = false) : d <+: join d n := by
  rw [join_of_relative hd hn]
  split
  · exact List.prefix_append ..
  · exact List.prefix_append ..

theorem checkPath_orDot (hs : isAbsolute n = false) (hc : checkPath (join d n) = .ok ()) :
    checkPath (orDot d) = .ok () := by
  by_cases hd : d = []
  · subst hd
    decide
  · have hdot : orDot d = d := if_neg (by simpa using hd)
    rw [hdot]
    exact checkPath_of_prefix hc (prefix_join hd hs) hd

theorem walk_orDot {r : Place}
    (hw : w.tree.walk (w.origin (orDot d)) ((segments d).filter fun s => !s.isEmpty) = .ok r)
    (hr : w.tree.find? r = some .directory) :
    w.tree.walk (w.origin (orDot d)) (steps (orDot d)) = .ok r := by
  -- The dot stands at the end of the steps, where it asks for a directory.
  have hstay : w.tree.walk r [currentSegment] = .ok r := by simp [FileTree.walk, hr]
  by_cases hd : d = []
  · subst hd
    cases hw
    exact hstay
  · have hdot : orDot d = d := if_neg (by simpa using hd)
    rw [hdot] at hw ⊢
    rw [steps, walk_append, hw]
    split
    · exact hstay
    · rfl

theorem locate_join (hn : n ≠ []) (hs : '/' ∉ n) (hl : w.locate (join d n) = .ok q) :
    ∃ r, w.locate (orDot d) = .ok r ∧ w.tree.find? r = some .directory ∧
      w.tree.walk r [n] = .ok q := by
  obtain ⟨hc, hw⟩ := locate_eq_ok.1 hl
  rw [origin_join hs, steps_join_name hn hs, walk_append] at hw
  cases hr : w.tree.walk (w.origin (orDot d)) ((segments d).filter fun s => !s.isEmpty) with
  | error e =>
    rw [hr] at hw
    cases hw
  | ok r =>
    rw [hr] at hw
    have hd : w.tree.find? r = some .directory := (walk_cons hw).1
    exact ⟨r, locate_eq_ok.2 ⟨checkPath_orDot (isAbsolute_of_slashFree hs) hc, walk_orDot hr hd⟩,
      hd, hw⟩

theorem locate_join_name (hn : IsName n) (hl : w.locate (join d n) = .ok q) :
    ∃ r, w.locate (orDot d) = .ok r ∧ w.tree.find? r = some .directory ∧ q = r ++ [n] := by
  obtain ⟨hne, hs, hdot, hparent⟩ := hn
  obtain ⟨r, hr, hd, hw⟩ := locate_join hne hs hl
  refine ⟨r, hr, hd, ?_⟩
  rw [walk_eq_descend hw, descend, if_neg hdot, if_neg hparent, descend]

theorem isDirectory_of_locate_slash (hd : d ≠ []) (hl : w.locate (join d []) = .ok q) :
    w.isDirectory d := by
  obtain ⟨hc, hw⟩ := locate_eq_ok.1 hl
  have hdot : orDot d = d := if_neg (by simpa using hd)
  have hsteps : steps (join d []) =
      (segments d).filter (fun s => !s.isEmpty) ++ [currentSegment] := by
    rw [join_of_relative hd rfl]
    split
    · next hend => rw [List.append_nil, steps, if_pos hend]
    · have hend : endsInSlash (d ++ ['/']) = true := by simp [endsInSlash]
      rw [steps, if_pos hend, segments_append_slash, List.filter_append]
      simp [segments]
  rw [origin_join List.not_mem_nil, hsteps, walk_append] at hw
  cases hr : w.tree.walk (w.origin (orDot d)) ((segments d).filter fun s => !s.isEmpty) with
  | error e =>
    rw [hr] at hw
    cases hw
  | ok r =>
    rw [hr] at hw
    have hdir : w.tree.find? r = some .directory := (walk_cons hw).1
    refine isDirectory_iff.2 ⟨r, locate_eq_ok.2 ⟨?_, ?_⟩, hdir⟩
    · exact hdot ▸ checkPath_orDot rfl hc
    · exact hdot ▸ walk_orDot hr hdir

theorem locate_dot_join (hn : IsName n) (hl : w.locate n = .ok q) :
    w.locate (join ['.'] n) = .ok q := by
  obtain ⟨hne, hs, hdot, hparent⟩ := hn
  have hj : join [] n = n := by simp [join, isAbsolute_of_slashFree hs]
  rw [← hj] at hl
  obtain ⟨r, hr, hd, hw⟩ := locate_join hne hs hl
  obtain ⟨hc, -⟩ := locate_eq_ok.1 hl
  obtain ⟨-, ⟨h, -⟩ | ⟨h, -⟩ | ⟨-, -, hsize, -, -⟩⟩ := walk_cons hw
  · exact absurd h hdot
  · exact absurd h hparent
  have hjoin : join ['.'] n = ['.', '/'] ++ n :=
    join_of_relative (List.cons_ne_nil _ _) (isAbsolute_of_slashFree hs)
  refine locate_eq_ok.2 ⟨checkPath_eq_ok.2 ⟨?_, ?_, ?_⟩, ?_⟩
  · obtain ⟨hpossible, -⟩ := checkPath_eq_ok.1 hc
    rw [hj] at hpossible
    rw [hjoin, IsImpossible, List.mem_append, not_or]
    exact ⟨by decide, hpossible⟩
  · rw [hjoin]
    exact List.cons_ne_nil _ _
  · have hprefix : byteSize ['.', '/'] = 2 := by decide
    rw [hjoin, byteSize_append, hprefix]
    simp only [maxNameSize, maxPathSize] at *
    omega
  · obtain ⟨-, hwalk⟩ := locate_eq_ok.1 hr
    rw [origin_join hs, steps_join_name hne hs, walk_append]
    have hseg : (segments ['.']).filter (fun s => !s.isEmpty) = steps (orDot []) := by decide
    rw [hseg]
    have horigin : w.origin (orDot ['.']) = w.origin (orDot []) := rfl
    rw [horigin, hwalk]
    exact hw

theorem WellFormed.isDirectory_dot (h : w.WellFormed) : w.isDirectory ['.'] := by
  refine isDirectory_iff.2 ⟨w.cwd, locate_eq_ok.2 ⟨by decide, ?_⟩, h.cwd⟩
  have hsteps : steps ['.'] = [currentSegment] := by decide
  have horigin : w.origin ['.'] = w.cwd := rfl
  rw [hsteps, horigin, FileTree.walk, h.cwd]
  simp [FileTree.walk]

end Workspace

end SliceIdl
