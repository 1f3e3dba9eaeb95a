import SliceIdl.Proofs.Compile.Emission
import SliceIdl.Proofs.Workspace.Changes

/-!
# What a successful command does to its workspace

The files that it makes or writes over are the destinations of its units, each with the rendered
document of the last unit that goes there, and the directories that it makes lie on the way to them.
Nothing goes away, and nothing else changes.
-/

set_option autoImplicit false

namespace SliceIdl
open FileTree

namespace Workspace

/-- What becomes of a workspace when units are compiled into a directory. -/
structure Compiled (dir : PathParts) (units : List (Text × LoadedUnit Document))
    (w w' : Workspace) : Prop where
  cwd : w'.cwd = w.cwd
  directory_kept : ∀ q, w.tree.find? q = some .directory → w'.tree.find? q = some .directory
  file_kept : ∀ q bytes, w.tree.find? q = some (.file bytes) →
    ∃ bytes', w'.tree.find? q = some (.file bytes')
  directory_made : ∀ q, w'.tree.find? q = some .directory → w.tree.find? q ≠ some .directory →
    ∃ u ∈ units, w.OnWay dir.root (LogicalName.artifactPath dir u.1).parts.dropLast q
  file_written : ∀ q bytes, w'.tree.find? q = some (.file bytes) →
    w.tree.find? q ≠ some (.file bytes) →
    (∃ u ∈ units, q = w.destination dir u.1) ∧
      ∃ above stem, q = above ++ [stem ++ LogicalName.artifactExtension]
  located : ∀ u ∈ units,
    w'.locate (LogicalName.artifactPath dir u.1).toText = .ok (w.destination dir u.1)
  /-- Each artifact's file holds what the last unit that goes there is rendered to. -/
  held : ∀ u ∈ units, ∃ before last after, units = before ++ last :: after ∧
    w.destination dir last.1 = w.destination dir u.1 ∧
    (∀ v ∈ after, w.destination dir v.1 ≠ w.destination dir u.1) ∧
    ∃ document text, Document.parse last.2.contents = .ok document ∧
      document.render? = some text ∧
      w'.tree.find? (w.destination dir u.1) = some (.file (encodeText text))

variable {w : Workspace} {dir : PathParts} {units : List (Text × LoadedUnit Document)}
  {artifacts : List Artifact}

theorem descend_artifactParts (dir : PathParts) (name : Text) :
    descend (w.base dir.root) (LogicalName.artifactPath dir name).parts =
      w.destination dir name := by
  obtain ⟨-, hdown⟩ := LogicalName.artifactFile_down name
  rw [LogicalName.artifactPath_parts, descend_append, descend_append, descend, if_neg hdown.1,
    if_neg hdown.2, descend]
  rfl

/-- Writing what units are rendered to makes directories on the way to their artifacts, and writes
files where these go. -/
theorem rendered_changes (hd : dir.IsNormal)
    (hr : units.mapM (Artifact.ofUnit? dir) = some artifacts) :
    Changes
      (fun q => ∃ u ∈ units, w.OnWay dir.root (LogicalName.artifactPath dir u.1).parts.dropLast q)
      (fun q => ∃ u ∈ units, q = w.destination dir u.1) w (w.writeArtifacts artifacts).1 := by
  have hpath : ∀ a ∈ artifacts, ∃ u ∈ units, a.path = LogicalName.artifactPath dir u.1 := by
    intro a ha
    obtain ⟨u, hu, hua⟩ := mapM_eq_some_mem hr a ha
    exact ⟨u, hu, (Artifact.ofUnit?_eq_some hua).2.1⟩
  have hnormal : ∀ a ∈ artifacts, a.path.IsNormal := by
    intro a ha
    obtain ⟨u, -, hp⟩ := hpath a ha
    exact hp ▸ LogicalName.artifactPath_isNormal hd u.1
  refine (writeArtifacts_changes hnormal).mono ?_ ?_
  · rintro q ⟨a, ha, hq⟩
    obtain ⟨u, hu, hp⟩ := hpath a ha
    rw [hp] at hq
    exact ⟨u, hu, hq⟩
  · rintro q ⟨a, ha, rfl⟩
    obtain ⟨u, hu, hp⟩ := hpath a ha
    rw [hp]
    exact ⟨u, hu, descend_artifactParts dir u.1⟩

theorem rendered_compiled (hd : dir.IsNormal)
    (hr : units.mapM (Artifact.ofUnit? dir) = some artifacts)
    (h : ∀ e ∈ (w.writeArtifacts artifacts).2, e = none)
    (hparse : ∀ u ∈ units, Document.parse u.2.contents = .ok u.2.document) :
    Compiled dir units w (w.writeArtifacts artifacts).1 where
  cwd := (rendered_changes hd hr).cwd
  directory_kept q hq := (rendered_changes hd hr).directory hq
  file_kept q bytes hq := (rendered_changes hd hr).file hq
  directory_made q hq hne := (rendered_changes hd hr).made hq hne
  file_written q bytes hq hne := by
    obtain ⟨u, hu, rfl⟩ := (rendered_changes hd hr).written hq hne
    exact ⟨⟨u, hu, rfl⟩, _, _, rfl⟩
  located := rendered_located hd hr h
  held u hu := by
    obtain ⟨before, last, after, hunits, hlast, hlater⟩ := exists_last hu
      (p := fun v => w.destination dir v.1 = w.destination dir u.1) rfl
    obtain ⟨text, htext, hfile⟩ := rendered_find? hd hr h hunits (by rwa [hlast])
    have hmem : last ∈ units := by simp [hunits]
    exact ⟨before, last, after, hunits, hlast, hlater, _, text, hparse last hmem, htext,
      hlast ▸ hfile⟩

end Workspace

namespace Command

variable {s : Surroundings} {w : Workspace} {arguments : List Text} {c : CommandLine}

/-- A command that ends with zero after compiling has loaded a closure. If it has no unit, nothing
has changed. Otherwise the changed files are those where artifacts of its units go, each with what
the last unit that goes there is rendered to, and the new directories lie on the way to them. -/
theorem exit_zero_frame (h : CommandLine.ofArguments arguments = .ok c)
    (he : (run s w arguments).ending = .exit 0) :
    ∃ p, (Compilation.plan w (compileOptions s w c)).result = .ok p ∧
      (p.units = [] → (run s w arguments).workspace = w) ∧
      (p.units ≠ [] → ∃ dir, (compileOptions s w c).outDir = some dir ∧
        Workspace.Compiled dir p.units w (run s w arguments).workspace) := by
  obtain ⟨p, hp, hw, hwritten⟩ := exit_zero_writes h he
  obtain ⟨paths, -, -, -, hartifacts⟩ := Compilation.plan_eq_ok.1 hp
  rw [hw]
  refine ⟨p, hp, fun hnil => ?_, fun hne => ?_⟩
  · have hnone : p.artifacts = [] := by
      rw [List.eq_nil_iff_forall_not_mem]
      intro a ha
      obtain ⟨dir, -, u, hu, -⟩ := Compilation.artifactsOf_mem hartifacts ha
      rw [hnil] at hu
      cases hu
    rw [hnone]
    rfl
  · obtain ⟨dir, hdir, hrendered⟩ := Compilation.artifactsOf_eq_ok hartifacts hne
    exact ⟨dir, hdir, Workspace.rendered_compiled (Compilation.compileOptions_outDir hdir) hrendered
      hwritten fun u hu => Compilation.plan_parse hp hu⟩

/-- Both units go to one file, which is new; the output directory is old. -/
theorem exit_zero_frame_colliding :
    CommandLine.ofArguments Colliding.trial.arguments = .ok Colliding.trial.line ∧
    Colliding.trial.run.ending = .exit 0 ∧
    Workspace.Compiled Colliding.outDir Colliding.plan.units Colliding.trial.workspace
      Colliding.trial.run.workspace ∧
    Colliding.trial.workspace.destination Colliding.outDir ['A'] =
      Colliding.trial.workspace.destination Colliding.outDir "../o/A".toList := by
  obtain ⟨p, hp, -, hall⟩ := exit_zero_frame Colliding.ofArguments_eq Colliding.exits_zero
  cases Colliding.plan_eq.symm.trans hp
  obtain ⟨including, included, hunits, -⟩ := Colliding.units_eq
  obtain ⟨dir, hdir, hcompiled⟩ := hall (by simp [hunits])
  cases Colliding.outDir_eq.symm.trans hdir
  exact ⟨Colliding.ofArguments_eq, Colliding.exits_zero, hcompiled, by decide⟩

end Command

end SliceIdl
