import SliceIdl.Proofs.Compile.Emission
import SliceIdl.Proofs.Compile.Outcome

/-!
# What a refused command leaves

A command line that cannot be understood and a file that cannot be named, found or parsed are told
before anything is written. So the command ends with its exit code and its report, and the workspace
is the one that it found. A failure to write is never told as one of these, nor one of these as a
failure to write.
-/

set_option autoImplicit false

namespace SliceIdl
open SliceIdl.Path

namespace Compilation

variable {w : Workspace} {o : CompileOptions}

/-- One of the selected files has no name, or one of the units that they lead to cannot be
loaded. -/
def Unloadable (w : Workspace) (o : CompileOptions) : Prop :=
  (∃ paths, (selectInputs w o.inputs o.excludes).result = .ok paths ∧ ∃ path ∈ paths, ∀ name,
    LogicalName.resolve (absolute w.cwdPath path) (o.absoluteRoots w.cwdPath) ≠ .ok name) ∨
  ∃ inputs, Named w o inputs ∧ ∃ name,
    (loader w (o.absoluteRoots w.cwdPath)).Reachable (inputs.map Prod.snd) name ∧
      ∀ loaded, (loader w (o.absoluteRoots w.cwdPath)).load name none ≠ .ok loaded

theorem emit_ne_load {artifacts : List Artifact} (reason : LoadError) :
    (emit w artifacts).result ≠ .error (.load reason) := by
  intro h
  obtain ⟨e, -, he⟩ := emit_eq_error.1 h
  rw [CompileError.ofWrite] at he
  split at he <;> cases he

theorem fails_of_load {reason : LoadError} (h : (run w o).result = .error (.load reason)) :
    Fails w o (.load reason) := by
  rcases run_eq_error.1 h with hf | ⟨p, -, he⟩
  · exact hf
  · exact absurd he (emit_ne_load reason)

theorem unloadable_of_failed {inputs : List (Text × Text)} {f : LoadFailure}
    (hn : Named w o inputs) (h : closure w o inputs = .failed f) : Unloadable w o := by
  obtain ⟨name, origin, ho, hl, -⟩ := Loader.loadClosure_failed _ h
  refine .inr ⟨inputs, hn, name, ho.reachable, fun loaded hloaded => ?_⟩
  have hok := loadUnit_ok hloaded origin
  rw [Loader.load] at hl
  rw [hl] at hok
  cases hok

theorem unloadable_of_fails {reason : LoadError} (h : Fails w o (.load reason)) :
    Unloadable w o := by
  generalize he : CompileError.load reason = e at h
  cases h with
  | unexpandable => cases he
  | @unnamed before after path reason hs hb h =>
    refine .inl ⟨_, hs, path, by simp, fun name hn => ?_⟩
    rw [h] at hn
    cases hn
  | unloaded hn h => exact unloadable_of_failed hn h
  | unplaced => cases he
  | unprinted => cases he

theorem Named.unique {inputs inputs' : List (Text × Text)} (h : Named w o inputs)
    (h' : Named w o inputs') : inputs = inputs' := by
  obtain ⟨paths, hs, hn⟩ := h
  obtain ⟨paths', hs', hn'⟩ := h'
  rw [hs, Except.ok.injEq] at hs'
  subst hs'
  rwa [hn, Except.ok.injEq] at hn'

/-- A file that cannot be named or loaded, be it behind any number of includes, leaves no plan. -/
theorem plan_ne_ok (h : Unloadable w o) (p : Plan) : (plan w o).result ≠ .ok p := by
  intro hp
  obtain ⟨paths, hs, hn, hu, -⟩ := plan_eq_ok.1 hp
  rcases h with ⟨paths', hs', path, hmem, hnot⟩ | ⟨inputs, hnamed, name, hreach, hnot⟩
  · rw [hs, Except.ok.injEq] at hs'
    subst hs'
    obtain ⟨rfl, hall⟩ := nameInputs_eq_ok hn
    obtain ⟨input, hi, rfl⟩ := List.mem_map.1 hmem
    exact hnot _ (hall input hi)
  · obtain rfl := hnamed.unique ⟨paths, hs, hn⟩
    obtain ⟨-, hkeys, hload⟩ := Loader.loadClosure_units _ hu
    obtain ⟨⟨_, loaded⟩, hmem, rfl⟩ := List.mem_map.1 ((hkeys name).2 hreach)
    exact hnot loaded (hload _ _ hmem)

theorem exists_fails (h : Unloadable w o) : ∃ e, Fails w o e := by
  cases hp : (plan w o).result with
  | error e => exact ⟨e, plan_eq_error.1 hp⟩
  | ok p => exact absurd hp (plan_ne_ok h p)

theorem Fails.ne_write {e : CompileError} (h : Fails w o e) (reason : WriteError) :
    e ≠ .write reason := by
  cases h with
  | @unloaded _ f hn h => cases f <;> exact CompileError.noConfusion
  | _ => exact CompileError.noConfusion

end Compilation

def CompileError.ending : CompileError → CommandEnd
  | load _ | write _ => .exit 1
  | fault f => .crash f

namespace Command

variable {s : Surroundings} {w : Workspace} {arguments : List Text} {c : CommandLine}

theorem reported_ending (json : Bool) (log : Text) (w : Workspace) (d : Diagnostic) :
    (reported json log w d).ending = .exit 1 ∧ (reported json log w d).workspace = w := by
  cases json <;> exact ⟨rfl, rfl⟩

theorem run_ending_of_error (h : CommandLine.ofArguments arguments = .ok c) {e : CompileError}
    (he : (Compilation.run w (compileOptions s w c)).result = .error e) :
    (run s w arguments).ending = e.ending := by
  rw [run, h]
  dsimp only
  rw [report, he]
  cases e with
  | load reason => exact (reported_ending ..).1
  | write reason => exact (reported_ending ..).1
  | fault f => rfl

theorem run_of_load (h : CommandLine.ofArguments arguments = .ok c) {reason : LoadError}
    (hr : (Compilation.run w (compileOptions s w c)).result = .error (.load reason)) :
    run s w arguments = reported c.json
      (logText c.verbosity (Compilation.run w (compileOptions s w c)).records) w
      reason.diagnostic := by
  rw [run, h]
  dsimp only
  rw [report, hr, (Compilation.run_of_fails (Compilation.fails_of_load hr)).1]

/-- A command line that is refused ends with two and a failure to load with one and its diagnostic,
and either leaves the workspace as it was. A failure to load is that of a selected file that has no
name or of a unit that the selected files lead to. With such a file or unit nothing is written, and
what is told instead of it can only be a fault. -/
theorem refused_keeps_workspace (s : Surroundings) (w : Workspace) (arguments : List Text) :
    (∀ reason, CommandLine.ofArguments arguments = .error (.usage reason) →
      run s w arguments = ⟨.exit 2, [], Usage.errorText reason, w⟩) ∧
    ∀ c, CommandLine.ofArguments arguments = .ok c →
      (∀ reason, (Compilation.run w (compileOptions s w c)).result = .error (.load reason) →
        Compilation.Unloadable w (compileOptions s w c) ∧
        (run s w arguments).ending = .exit 1 ∧ (run s w arguments).workspace = w ∧
        run s w arguments = reported c.json
          (logText c.verbosity (Compilation.run w (compileOptions s w c)).records) w
          reason.diagnostic) ∧
      (Compilation.Unloadable w (compileOptions s w c) →
        ((run s w arguments).ending = .exit 1 ∨ ∃ f, (run s w arguments).ending = .crash f) ∧
          (run s w arguments).workspace = w) := by
  constructor
  · intro reason h
    rw [run, h]
  intro c h
  constructor
  · intro reason hr
    have hrun := run_of_load h hr
    obtain ⟨hending, hworkspace⟩ := reported_ending c.json
      (logText c.verbosity (Compilation.run w (compileOptions s w c)).records) w reason.diagnostic
    exact ⟨Compilation.unloadable_of_fails (Compilation.fails_of_load hr), hrun ▸ hending,
      hrun ▸ hworkspace, hrun⟩
  · intro hu
    obtain ⟨e, he⟩ := Compilation.exists_fails hu
    obtain ⟨hworkspace, hresult⟩ := Compilation.run_of_fails he
    rw [run_ending_of_error h hresult, run_workspace h]
    refine ⟨?_, hworkspace⟩
    cases e with
    | load reason => exact .inl rfl
    | write reason => exact absurd rfl (he.ne_write reason)
    | fault f => exact .inr ⟨f, rfl⟩

end Command

namespace Dangling

/-- A file below the root includes one that is not there. -/
def trial : Trial where
  tree := ⟨[([['r']], .directory),
    ([['r'], "A.ice".toList], .file (encodeText "#include <Gone.ice>".toList))]⟩
  files := ["r/A.ice".toList]
  roots := [['r']]

theorem ofArguments_eq : CommandLine.ofArguments trial.arguments = .ok trial.line :=
  rfl

def reason : LoadError := .notFound "Gone".toList (some ['A'])

def inputs : List (Text × Text) :=
  [("r/A.ice".toList, ['A'])]

theorem named : Compilation.Named trial.workspace trial.options inputs :=
  ⟨["r/A.ice".toList], rfl, rfl⟩

theorem closure_eq :
    Compilation.closure trial.workspace trial.options inputs = .failed (.error reason) :=
  Trial.failed (n := 6) (by decide +kernel)

theorem result_eq :
    (Compilation.run trial.workspace trial.options).result = .error (.load reason) :=
  (Compilation.run_of_fails (.unloaded named closure_eq)).2

end Dangling

theorem Command.refused_keeps_workspace_dangling :
    run Trial.surroundings Dangling.trial.workspace [] =
      ⟨.exit 2, [], Usage.errorText (.missingArguments ["files".toList, "--root-dir".toList]),
        Dangling.trial.workspace⟩ ∧
    Dangling.trial.run.ending = .exit 1 ∧
    Dangling.trial.run.workspace = Dangling.trial.workspace := by
  obtain ⟨husage, -⟩ := refused_keeps_workspace Trial.surroundings Dangling.trial.workspace []
  obtain ⟨-, hall⟩ := refused_keeps_workspace Trial.surroundings Dangling.trial.workspace
    Dangling.trial.arguments
  obtain ⟨-, hending, hworkspace, -⟩ :=
    (hall Dangling.trial.line Dangling.ofArguments_eq).1 Dangling.reason Dangling.result_eq
  exact ⟨husage _ (by decide), hending, hworkspace⟩

end SliceIdl
