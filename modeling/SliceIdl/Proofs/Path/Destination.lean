import SliceIdl.Proofs.Path.Naming
import SliceIdl.Proofs.Workspace.Growth

/-!
# Where compiled forms go

The path of a compiled form is made of the segments of the output directory and those of the name,
and the text of the path is followed along just these segments. So two names go to one file if and
only if their last segments are the same and their other segments lead to one directory. Segments
that are empty or `.` are dropped and `..` leads back up, so different names can have that in
common; names without such segments cannot.
-/

set_option autoImplicit false

namespace SliceIdl
open SliceIdl.Path

namespace PathParts

/-- A root of its own kind and segments that can stand between slashes. -/
structure IsNormal (p : PathParts) : Prop where
  root : p.root = [] ∨ p.root = ['/'] ∨ p.root = ['/', '/']
  parts : ∀ s ∈ p.parts, IsSegment s ∧ isProper s

theorem rootOf_cases (p : Text) : rootOf p = [] ∨ rootOf p = ['/'] ∨ rootOf p = ['/', '/'] := by
  rw [rootOf.eq_def]
  split <;> simp

theorem isSegment_of_isProper {s : Text} (hs : '/' ∉ s) (hp : isProper s) : IsSegment s := by
  refine ⟨?_, hs⟩
  rintro rfl
  cases hp

theorem ofText_isNormal (p : Text) : (ofText p).IsNormal where
  root := rootOf_cases p
  parts s hs := by
    obtain ⟨hm, hp⟩ := List.mem_filter.1 hs
    exact ⟨isSegment_of_isProper (slashFree_of_mem_segments hm) hp, hp⟩

theorem IsNormal.extend {p : PathParts} (h : p.IsNormal) {segments : List Text}
    (hs : ∀ s ∈ segments, '/' ∉ s) : (p.extend segments).IsNormal where
  root := h.root
  parts s hmem := by
    rcases List.mem_append.1 hmem with hp | hp
    · exact h.parts s hp
    · obtain ⟨hm, hp⟩ := List.mem_filter.1 hp
      exact ⟨isSegment_of_isProper (hs s hm) hp, hp⟩

variable {p : PathParts}

theorem IsNormal.toText_eq (h : p.IsNormal) (hne : p.parts ≠ []) :
    p.toText = p.root ++ Text.joined ['/'] p.parts ∧ Text.joined ['/'] p.parts ≠ [] := by
  have hj : Text.joined ['/'] p.parts ≠ [] := by
    intro hj
    have hseg := segments_joined hne fun s hs => (h.parts s hs).1.2
    rw [hj] at hseg
    exact (h.parts [] (hseg ▸ List.mem_singleton_self _)).1.1 rfl
  refine ⟨?_, hj⟩
  rw [toText, orDot, if_neg (by simp [hj])]

theorem IsNormal.steps_toText (h : p.IsNormal) (hne : p.parts ≠ []) :
    FileTree.steps p.toText = p.parts := by
  obtain ⟨ht, hj⟩ := h.toText_eq hne
  have hseg : ∀ s ∈ p.parts, IsSegment s := fun s hs => (h.parts s hs).1
  have hend : endsInSlash p.toText = false := by
    rw [ht, endsInSlash_append hj, LogicalName.endsInSlash_joined hseg]
  have hfilter : p.parts.filter (fun s => !s.isEmpty) = p.parts := by
    rw [List.filter_eq_self]
    intro s hs
    simpa using (hseg s hs).1
  have hjoined := segments_joined hne fun s hs => (hseg s hs).2
  rw [FileTree.steps, hend, ht]
  rcases h.root with hr | hr | hr <;> simp [hr, segments_slash, hjoined, hfilter]

theorem IsNormal.isAbsolute_toText (h : p.IsNormal) (hne : p.parts ≠ []) :
    isAbsolute p.toText = !p.root.isEmpty := by
  obtain ⟨ht, -⟩ := h.toText_eq hne
  rw [ht]
  rcases h.root with hr | hr | hr
  · obtain ⟨s, ss, hp⟩ := List.exists_cons_of_ne_nil hne
    have hs : IsSegment s := (h.parts s (hp ▸ List.mem_cons_self)).1
    rw [hr, List.nil_append, hp]
    cases ss with
    | nil => exact isAbsolute_of_slashFree hs.2
    | cons t ss =>
      rw [joined_cons (List.cons_ne_nil t ss), isAbsolute_append hs.1]
      exact isAbsolute_of_slashFree hs.2
  · rw [hr]
    rfl
  · rw [hr]
    rfl

end PathParts

namespace LogicalName

/-- All segments of a name but the last one, as far as they are followed. -/
def folders (name : Text) : List Text :=
  (segments name).dropLast.filter isProper

def artifactFile (name : Text) : Text :=
  (segments name).getLastD [] ++ artifactExtension

theorem artifactFile_slashFree (name : Text) : '/' ∉ artifactFile name := by
  have hlast : '/' ∉ (segments name).getLastD [] := by
    rw [List.getLastD_eq_getLast?, List.getLast?_eq_some_getLast (segments_ne_nil name)]
    exact slashFree_of_mem_segments (List.getLast_mem _)
  rw [artifactFile, List.mem_append, not_or]
  exact ⟨hlast, by decide⟩

theorem artifactFile_down (name : Text) : isProper (artifactFile name) ∧
    artifactFile name ≠ FileTree.currentSegment ∧ artifactFile name ≠ parentSegment := by
  have hlength : 5 ≤ (artifactFile name).length := by
    rw [artifactFile, List.length_append]
    exact Nat.le_add_left ..
  have hne (s : Text) (hs : s.length < 5) : artifactFile name ≠ s := by
    rintro rfl
    omega
  refine ⟨?_, hne _ (by decide), hne _ (by decide)⟩
  have hempty := hne [] (by decide)
  have hdot := hne ['.'] (by decide)
  simp [isProper, hempty, hdot]

theorem artifactPath_parts (outDir : PathParts) (name : Text) :
    (artifactPath outDir name).parts = outDir.parts ++ folders name ++ [artifactFile name] := by
  have hfile : [artifactFile name].filter isProper = [artifactFile name] := by
    rw [List.filter_singleton, (artifactFile_down name).1]
    rfl
  rw [List.append_assoc, ← hfile, folders, ← List.filter_append]
  rfl

theorem artifactPath_isNormal {outDir : PathParts} (h : outDir.IsNormal) (name : Text) :
    (artifactPath outDir name).IsNormal := by
  refine h.extend fun s hs => ?_
  rcases List.mem_append.1 hs with hd | hf
  · exact slashFree_of_mem_segments (List.dropLast_subset _ hd)
  · rw [List.mem_singleton.1 hf]
    exact artifactFile_slashFree name

/-- A name none of whose segments, the last one apart, is dropped or leads back up. -/
def IsPlain (name : Text) : Prop :=
  ∀ s ∈ (segments name).dropLast, isProper s ∧ s ≠ parentSegment

theorem IsPlain.folders_eq {name : Text} (h : IsPlain name) :
    folders name = (segments name).dropLast := by
  rw [folders, List.filter_eq_self]
  exact fun s hs => (h s hs).1

theorem eq_of_segments {name other : Text}
    (hd : (segments name).dropLast = (segments other).dropLast)
    (hl : (segments name).getLastD [] = (segments other).getLastD []) : name = other := by
  have hsegments : segments name = segments other := by
    rw [← List.dropLast_append_getLast (segments_ne_nil name),
      ← List.dropLast_append_getLast (segments_ne_nil other), hd]
    rw [List.getLastD_eq_getLast?, List.getLastD_eq_getLast?,
      List.getLast?_eq_some_getLast (segments_ne_nil name),
      List.getLast?_eq_some_getLast (segments_ne_nil other)] at hl
    simp only [Option.getD_some] at hl
    rw [hl]
  rw [← joined_segments name, hsegments, joined_segments]

end LogicalName

namespace Workspace
open FileTree LogicalName

variable {w : Workspace} {outDir : PathParts}

def outputPlace (w : Workspace) (outDir : PathParts) : Place :=
  descend (if outDir.root.isEmpty then w.cwd else []) outDir.parts

/-- Where the compiled form of a name goes. -/
def destination (w : Workspace) (outDir : PathParts) (name : Text) : Place :=
  descend (w.outputPlace outDir) (folders name) ++ [artifactFile name]

theorem descend_artifactPath (h : outDir.IsNormal) (name : Text) :
    descend (w.origin (artifactPath outDir name).toText)
      (steps (artifactPath outDir name).toText) = w.destination outDir name := by
  have hnormal := artifactPath_isNormal h name
  have hne : (artifactPath outDir name).parts ≠ [] := by simp [artifactPath_parts]
  have hroot : (artifactPath outDir name).root = outDir.root := rfl
  obtain ⟨-, hdown⟩ := artifactFile_down name
  rw [origin, hnormal.isAbsolute_toText hne, hroot, hnormal.steps_toText hne, artifactPath_parts,
    descend_append, descend_append, descend, if_neg hdown.1, if_neg hdown.2, descend, destination,
    outputPlace]
  cases outDir.root.isEmpty <;> rfl

/-- Two names go to one file just if their folders lead to one place and their last segments are
the same. -/
theorem destination_eq_iff {name other : Text} :
    w.destination outDir name = w.destination outDir other ↔
      descend (w.outputPlace outDir) (folders name) =
        descend (w.outputPlace outDir) (folders other) ∧
      (segments name).getLastD [] = (segments other).getLastD [] := by
  rw [destination, destination, List.append_singleton_inj, artifactFile, artifactFile,
    List.append_cancel_right_eq]

theorem descend_folders {name : Text} (h : IsPlain name) (p : Place) :
    descend p (folders name) = p ++ (segments name).dropLast := by
  rw [h.folders_eq]
  apply descend_of_down
  intro s hs
  obtain ⟨hproper, hparent⟩ := h s hs
  refine ⟨?_, hparent⟩
  rintro rfl
  cases hproper

theorem destination_injective {name other : Text} (hn : IsPlain name) (ho : IsPlain other)
    (h : w.destination outDir name = w.destination outDir other) : name = other := by
  obtain ⟨hfolders, hlast⟩ := destination_eq_iff.1 h
  rw [descend_folders hn, descend_folders ho, List.append_cancel_left_eq] at hfolders
  exact eq_of_segments hfolders hlast

end Workspace

end SliceIdl
