import SliceIdl.Proofs.Compile.Emission
import SliceIdl.Proofs.Compile.Outcome
import SliceIdl.Proofs.Path.Climbing
import SliceIdl.Proofs.Workspace.Changes

/-!
# Where a command writes

A command changes nothing but places on the way along the paths of its artifacts. These paths start
with the output directory, so what is made for them lies below it or is one of the missing
directories on the way to it, as long as the names of the units do not climb. The name of an input
never does, but an include can spell one that does, and its artifact can then lie anywhere.
-/

set_option autoImplicit false

namespace SliceIdl
open SliceIdl.Path FileTree

namespace Compilation

variable {w : Workspace} {o : CompileOptions}

theorem plan_climbs {p : Plan} (h : (plan w o).result = .ok p) {u : Text × LoadedUnit Document}
    (hu : u ∈ p.units) (hc : LogicalName.Climbs u.1) :
    ∃ includer ∈ p.units, u.1 ∈ includer.2.document.includes := by
  obtain ⟨paths, -, hn, hunits, -⟩ := plan_eq_ok.1 h
  obtain ⟨-, hreach, hload⟩ := Loader.loadClosure_units _ hunits
  cases (hreach u.1).1 (List.mem_map_of_mem (f := Prod.fst) hu) with
  | initial hi =>
    obtain ⟨input, hmem, hname⟩ := List.mem_map.1 hi
    have hresolve := (nameInputs_eq_ok hn).2 input hmem
    rw [hname] at hresolve
    exact absurd hc (LogicalName.not_climbs_of_resolve rfl hresolve)
  | included hr hl hi =>
    obtain ⟨⟨name, loaded⟩, hmem, rfl⟩ := List.mem_map.1 ((hreach _).2 hr)
    rw [hload _ _ hmem, Except.ok.injEq] at hl
    exact ⟨_, hmem, hl ▸ hi⟩

end Compilation

namespace Workspace

variable {w : Workspace} {dir : PathParts} {name : Text} {q : Place}

theorem descend_parts (w : Workspace) (dir : PathParts) (names : List Text) :
    descend (w.base dir.root) (dir.parts ++ names) = descend (w.outputPlace dir) names :=
  descend_append ..

theorem artifactPath_dropLast (dir : PathParts) (name : Text) :
    (LogicalName.artifactPath dir name).parts.dropLast = dir.parts ++ LogicalName.folders name := by
  rw [LogicalName.artifactPath_parts, List.dropLast_concat]

theorem OnWay.below (h : w.OnWay dir.root (LogicalName.artifactPath dir name).parts.dropLast q) :
    w.OnWay dir.root dir.parts q ∨ w.outputPlace dir <+: q ∨ LogicalName.Climbs name := by
  obtain ⟨upper, hu, rfl⟩ := h
  rw [artifactPath_dropLast] at hu
  rcases List.prefix_or_prefix_of_prefix hu (List.prefix_append ..) with hdir | ⟨inner, rfl⟩
  · exact .inl ⟨upper, hdir, rfl⟩
  right
  by_cases hc : LogicalName.Climbs name
  · exact .inr hc
  left
  rw [List.prefix_append_right_inj] at hu
  rw [descend_parts]
  exact LogicalName.prefix_descend_folders hc hu _

theorem outputPlace_prefix (h : ¬ LogicalName.Climbs name) :
    w.outputPlace dir <+:
      descend (w.base dir.root) (LogicalName.artifactPath dir name).parts := by
  obtain ⟨-, hdown⟩ := LogicalName.artifactFile_down name
  rw [LogicalName.artifactPath_parts, List.append_assoc, descend_parts, descend_append, descend,
    if_neg hdown.1, if_neg hdown.2, descend]
  exact (LogicalName.prefix_descend_folders h List.prefix_rfl _).trans (List.prefix_append ..)

end Workspace

namespace Command

variable {s : Surroundings} {w : Workspace} {arguments : List Text}

theorem run_changed {q : Place}
    (h : (run s w arguments).workspace.tree.find? q ≠ w.tree.find? q) :
    ∃ c p, CommandLine.ofArguments arguments = .ok c ∧
      (Compilation.plan w (compileOptions s w c)).result = .ok p ∧
      (run s w arguments).workspace = (w.writeArtifacts p.artifacts).1 := by
  cases hc : CommandLine.ofArguments arguments with
  | error stop =>
    rw [run, hc] at h
    cases stop <;> exact absurd rfl h
  | ok c =>
    have hw := run_workspace (s := s) (w := w) hc
    cases hp : (Compilation.plan w (compileOptions s w c)).result with
    | error e =>
      rw [hw, (Compilation.run_of_fails (Compilation.plan_eq_error.1 hp)).1] at h
      exact absurd rfl h
    | ok p => exact ⟨c, p, rfl, hp, hw.trans (Compilation.run_of_plan hp).1⟩

/-- A place that a command changes is at or below the output directory, or it is a missing directory
on the way to it, or else it is on the way to the artifact of a name that climbs and that a unit of
the closure includes. -/
theorem run_confined {q : Place}
    (h : (run s w arguments).workspace.tree.find? q ≠ w.tree.find? q) :
    ∃ c p dir, CommandLine.ofArguments arguments = .ok c ∧
      (Compilation.plan w (compileOptions s w c)).result = .ok p ∧
      (compileOptions s w c).outDir = some dir ∧
      (w.outputPlace dir <+: q ∨
        w.OnWay dir.root dir.parts q ∧ w.tree.find? q = none ∧
          (run s w arguments).workspace.tree.find? q = some .directory ∨
        ∃ includer ∈ p.units, ∃ name ∈ includer.2.document.includes, LogicalName.Climbs name ∧
          w.OnWay dir.root (LogicalName.artifactPath dir name).parts q) := by
  obtain ⟨c, p, hc, hp, hw⟩ := run_changed h
  obtain ⟨paths, -, -, -, hartifacts⟩ := Compilation.plan_eq_ok.1 hp
  have hmem : ∀ a ∈ p.artifacts, ∃ dir, (compileOptions s w c).outDir = some dir ∧
      ∃ u ∈ p.units, a.path = LogicalName.artifactPath dir u.1 :=
    fun a ha => Compilation.artifactsOf_mem hartifacts ha
  have hnormal : ∀ a ∈ p.artifacts, a.path.IsNormal := by
    intro a ha
    obtain ⟨dir, hd, u, -, hpath⟩ := hmem a ha
    exact hpath ▸ LogicalName.artifactPath_isNormal (Compilation.compileOptions_outDir hd) u.1
  -- a name that climbs has an includer, and its way is that of the artifact
  have hclimbs : ∀ dir, ∀ u ∈ p.units, LogicalName.Climbs u.1 →
      w.OnWay dir.root (LogicalName.artifactPath dir u.1).parts q →
      ∃ includer ∈ p.units, ∃ name ∈ includer.2.document.includes, LogicalName.Climbs name ∧
        w.OnWay dir.root (LogicalName.artifactPath dir name).parts q := by
    intro dir u hu hcl hway
    obtain ⟨includer, hi, hin⟩ := Compilation.plan_climbs hp hu hcl
    exact ⟨includer, hi, u.1, hin, hcl, hway⟩
  have hchange := (Workspace.writeArtifacts_changes (w := w) hnormal).change q
  rw [← hw] at hchange
  generalize hbefore : w.tree.find? q = before at h hchange ⊢
  generalize (run s w arguments).workspace.tree.find? q = after at h hchange ⊢
  cases hchange with
  | same => exact absurd rfl h
  | made hway =>
    obtain ⟨a, ha, hway⟩ := hway
    obtain ⟨dir, hd, u, hu, hpath⟩ := hmem a ha
    rw [hpath] at hway
    refine ⟨c, p, dir, hc, hp, hd, ?_⟩
    rcases hway.below with hdir | hbelow | hcl
    · exact .inr (.inl ⟨hdir, rfl, rfl⟩)
    · exact .inl hbelow
    · obtain ⟨upper, hupper, hq⟩ := hway
      exact .inr (.inr (hclimbs dir u hu hcl
        ⟨upper, hupper.trans (List.dropLast_prefix _), hq⟩))
  | written hend hne bytes =>
    obtain ⟨a, ha, rfl⟩ := hend
    obtain ⟨dir, hd, u, hu, hpath⟩ := hmem a ha
    rw [hpath] at hclimbs ⊢
    refine ⟨c, p, dir, hc, hp, hd, ?_⟩
    by_cases hcl : LogicalName.Climbs u.1
    · exact .inr (.inr (hclimbs dir u hu hcl ⟨_, List.prefix_rfl, rfl⟩))
    · exact .inl (Workspace.outputPlace_prefix hcl)

end Command

namespace Escaping

/-- A file below the root includes one beside the root. -/
def trial : Trial where
  tree := ⟨[([['r']], .directory),
    ([['r'], "A.ice".toList], .file (encodeText "#include <../B.ice>".toList)),
    (["B.ice".toList], .file (encodeText []))]⟩
  files := ["r/A.ice".toList]
  roots := [['r']]
  outDir := .path ['o']

theorem ofArguments_eq : CommandLine.ofArguments trial.arguments = .ok trial.line :=
  rfl

def outDir : PathParts := ⟨[], [['o']]⟩

theorem outDir_eq : trial.options.outDir = some outDir :=
  rfl

def plan : Plan where
  inputs := [("r/A.ice".toList, ['A'])]
  units := (trial.state 6 [['A']]).units
  artifacts :=
    [⟨['A'], ⟨[], [['o'], "A.json".toList]⟩, Trial.textIncluding "../B".toList⟩,
      ⟨"../B".toList, ⟨[], [['o'], "..".toList, "B.json".toList]⟩, Trial.emptyText⟩]

theorem plan_eq : (Compilation.plan trial.workspace trial.options).result = .ok plan :=
  Compilation.plan_eq_ok.2
    ⟨["r/A.ice".toList], rfl, rfl, Trial.loaded (n := 6) (by decide +kernel), by decide +kernel⟩

theorem workspace_eq : trial.run.workspace = (trial.workspace.writeArtifacts plan.artifacts).1 := by
  rw [Trial.run, Command.run_workspace ofArguments_eq]
  exact (Compilation.run_of_plan plan_eq).1

def outside : Place := ["B.json".toList]

theorem changed : trial.run.workspace.tree.find? outside ≠ trial.workspace.tree.find? outside := by
  rw [workspace_eq]
  decide

end Escaping

/-- A command can write a file that is neither at or below its output directory nor above it. -/
theorem Command.not_always_confined :
    ¬ ∀ (s : Surroundings) (w : Workspace) (arguments : List Text) (c : CommandLine)
        (dir : PathParts) (q : Place),
      CommandLine.ofArguments arguments = .ok c →
      (compileOptions s w c).outDir = some dir →
      (run s w arguments).workspace.tree.find? q ≠ w.tree.find? q →
      w.outputPlace dir <+: q ∨ q <+: w.outputPlace dir := by
  intro h
  have hplace := h _ _ _ _ _ _ Escaping.ofArguments_eq Escaping.outDir_eq Escaping.changed
  revert hplace
  decide

/-- The included name climbs. -/
theorem Command.run_confined_escaping :
    Escaping.trial.run.workspace.tree.find? Escaping.outside ≠
      Escaping.trial.workspace.tree.find? Escaping.outside ∧
    ∃ includer ∈ Escaping.plan.units, ∃ name ∈ includer.2.document.includes,
      LogicalName.Climbs name := by
  obtain ⟨c, p, dir, hc, hp, hd, hplace⟩ := run_confined Escaping.changed
  cases Escaping.ofArguments_eq.symm.trans hc
  cases Escaping.plan_eq.symm.trans hp
  cases Escaping.outDir_eq.symm.trans hd
  refine ⟨Escaping.changed, ?_⟩
  rcases hplace with hbelow | ⟨-, -, hdir⟩ | ⟨includer, hi, name, hn, hcl, -⟩
  · revert hbelow
    decide
  · have hwritten := congrArg (fun w => w.tree.find? Escaping.outside) Escaping.workspace_eq
    cases hwritten.symm.trans hdir
  · exact ⟨includer, hi, name, hn, hcl⟩

end SliceIdl
