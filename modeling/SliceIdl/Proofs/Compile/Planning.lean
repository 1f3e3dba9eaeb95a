import SliceIdl.Command.Run
import SliceIdl.Proofs.Compile.Selecting
import SliceIdl.Proofs.Path.Naming
import SliceIdl.Proofs.Load.Reachability

/-!
# What a plan is made of

A compilation goes from one stage to the next only with a result, so a plan has a result of every
stage: the selected files, no two of them with the same absolute path, their names, the closure of
these names, and the artifacts. A command that compiles ends with zero if and only if there is a
plan and all its artifacts could be written.
-/

set_option autoImplicit false

namespace SliceIdl

namespace Logged

theorem bind_eq_ok {α β : Type} {x : Logged α} {f : α → Logged β} {b : β} :
    (x.bind f).result = .ok b ↔ ∃ a, x.result = .ok a ∧ (f a).result = .ok b := by
  rw [bind]
  cases hx : x.result with
  | error e => simp
  | ok a => simp

end Logged

namespace Compilation
open SliceIdl.Path

variable {w : Workspace} {o : CompileOptions}

theorem selectInputs_nodup {patterns excludes paths : List Text}
    (h : (selectInputs w patterns excludes).result = .ok paths) :
    (paths.map (absolute w.cwdPath)).Nodup := by
  rw [selectInputs] at h
  split at h
  · cases h
  · dsimp only at h
    split at h
    · cases h
      exact Selection.ofPatterns_nodup ..
    · cases h

theorem nameInputs_eq_ok {cwd : Text} {roots paths : List Text} {inputs : List (Text × Text)}
    (h : (nameInputs cwd roots paths).result = .ok inputs) :
    inputs.map Prod.fst = paths ∧
      ∀ x ∈ inputs, LogicalName.resolve (absolute cwd x.1) roots = .ok x.2 := by
  induction paths generalizing inputs with
  | nil =>
    cases h
    exact ⟨rfl, fun x hx => absurd hx List.not_mem_nil⟩
  | cons path paths ih =>
    rw [nameInputs] at h
    cases hr : LogicalName.resolve (absolute cwd path) roots with
    | error e => simp [hr] at h
    | ok name =>
      simp only [hr] at h
      cases hn : (nameInputs cwd roots paths).result with
      | error e => simp [hn, Except.map] at h
      | ok named =>
        simp only [hn, Except.map, Except.ok.injEq] at h
        subst h
        obtain ⟨hfst, hall⟩ := ih hn
        constructor
        · rw [List.map_cons, hfst]
        · intro x hx
          rcases List.mem_cons.1 hx with rfl | hx
          · exact hr
          · exact hall x hx

theorem loadUnits_eq_ok {roots names : List Text} {units : List (Text × LoadedUnit Document)} :
    (loadUnits w roots names).result = .ok units ↔
      ((loader w roots).loadClosure names).1 = .loaded units := by
  rw [loadUnits]
  cases hr : (loader w roots).loadClosure names with
  | mk result events => cases result <;> simp

theorem plan_eq_ok {p : Plan} :
    (plan w o).result = .ok p ↔
      ∃ paths, (selectInputs w o.inputs o.excludes).result = .ok paths ∧
        (nameInputs w.cwdPath (o.absoluteRoots w.cwdPath) paths).result = .ok p.inputs ∧
        ((loader w (o.absoluteRoots w.cwdPath)).loadClosure (p.inputs.map Prod.snd)).1 =
          .loaded p.units ∧
        (artifactsOf o.outDir p.units).result = .ok p.artifacts := by
  obtain ⟨inputs, units, artifacts⟩ := p
  simp only [plan, Logged.bind_eq_ok, loadUnits_eq_ok, Except.ok.injEq, Plan.mk.injEq]
  constructor
  · rintro ⟨paths, hp, _, hi, _, hu, _, ha, rfl, rfl, rfl⟩
    exact ⟨paths, hp, hi, hu, ha⟩
  · rintro ⟨paths, hp, hi, hu, ha⟩
    exact ⟨paths, hp, _, hi, _, hu, _, ha, rfl, rfl, rfl⟩

theorem run_eq_ok {outputs : List (Text × PathParts)} :
    (run w o).result = .ok outputs ↔
      ∃ p, (plan w o).result = .ok p ∧ (emit w p.artifacts).result = .ok outputs := by
  rw [run]
  dsimp only
  cases hp : (plan w o).result with
  | error e => simp
  | ok p => simp

theorem absoluteRoots_canonical : ∀ root ∈ o.absoluteRoots w.cwdPath, IsCanonical root := by
  intro root hr
  obtain ⟨path, -, rfl⟩ := List.mem_map.1 hr
  exact absolute_canonical rfl path

end Compilation

theorem Command.exit_zero_iff {s : Surroundings} {w : Workspace} {arguments : List Text}
    {c : CommandLine} (h : CommandLine.ofArguments arguments = .ok c) :
    (run s w arguments).ending = .exit 0 ↔
      ∃ p outputs, (Compilation.plan w (compileOptions s w c)).result = .ok p ∧
        (Compilation.emit w p.artifacts).result = .ok outputs := by
  have hr : (run s w arguments).ending = .exit 0 ↔
      ∃ outputs, (Compilation.run w (compileOptions s w c)).result = .ok outputs := by
    rw [run, h]
    dsimp only
    rw [report]
    cases (Compilation.run w (compileOptions s w c)).result with
    | ok outputs => simp
    | error e =>
      cases e with
      | load e => simp [reported, apply_ite CommandResult.ending]
      | write e => simp [reported, apply_ite CommandResult.ending]
      | fault f => simp
  rw [hr]
  simp only [Compilation.run_eq_ok]
  exact ⟨fun ⟨outputs, p, hp, he⟩ => ⟨p, outputs, hp, he⟩,
    fun ⟨p, outputs, hp, he⟩ => ⟨outputs, p, hp, he⟩⟩

end SliceIdl
