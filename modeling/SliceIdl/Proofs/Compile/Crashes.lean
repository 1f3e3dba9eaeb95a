import SliceIdl.Proofs.Compile.Refusal
import SliceIdl.Proofs.Workspace.Expansion
import SliceIdl.Proofs.Workspace.Impossible

/-!
# How a command crashes

Most failures are reported. A command crashes only over an impossible path, that it is given or that
an include spells, over an output directory that is asked for without a path, or over a number with
more digits than can be written down.
-/

set_option autoImplicit false

namespace SliceIdl
open SliceIdl.Path

namespace Glob

theorem of_mem_parentPath {c : Char} {p : Text} (h : c ∈ parentPath p) : c ∈ p := by
  have hdrop : ∀ {q : Text} {f : Char → Bool}, c ∈ (q.reverse.dropWhile f).reverse → c ∈ q :=
    fun hq => List.mem_reverse.1 ((List.dropWhile_suffix _).subset (List.mem_reverse.1 hq))
  rw [parentPath, withoutEndSlashes] at h
  split at h
  · exact hdrop h
  · exact hdrop (hdrop h)

theorem impossible_of_not_expandable {pattern : Text} (h : isExpandable pattern = false) :
    IsImpossible pattern := by
  simp only [isExpandable, Bool.or_eq_false_iff, Bool.not_eq_false'] at h
  exact (List.takeWhile_prefix _).subset
    (of_mem_parentPath (contains_iff_isImpossible.1 h.2))

end Glob

theorem loadUnit_fault {Doc : Type} {reader : Reader} {language : Language Doc} {name : Text}
    {origin : Option Text} {roots : List Text} {f : Fault}
    (h : (loadUnit reader language name origin roots).2 = .error (.fault f)) :
    ∃ root ∈ roots, reader.read (probePath root name) = .broken f := by
  induction roots with
  | nil => cases h
  | cons root roots ih =>
    rw [loadUnit] at h
    cases hr : reader.read (probePath root name) with
    | unreadable e =>
      simp only [hr] at h
      obtain ⟨other, ho, hread⟩ := ih h
      exact ⟨other, List.mem_cons_of_mem _ ho, hread⟩
    | broken f' =>
      simp only [hr, Except.error.injEq, LoadFailure.fault.injEq] at h
      exact ⟨root, List.mem_cons_self, h ▸ hr⟩
    | text t =>
      simp only [hr, LoadedUnit.ofText] at h
      split at h <;> cases h

theorem LogicalName.impossible_probePath {root name : Text} :
    IsImpossible (probePath root name) ↔ IsImpossible root ∨ IsImpossible name :=
  LogicalName.mem_probePath (by decide) (by decide) root name

namespace Compilation

variable {w : Workspace} {o : CompileOptions}

def givenPaths (w : Workspace) (o : CompileOptions) : List Text :=
  w.cwdPath :: (o.excludes ++ o.inputs ++ o.roots ++ o.builtinDir.toList ++
    (o.outDir.map PathParts.toText).toList)

/-- What a compilation crashes over. -/
inductive Cause (w : Workspace) (o : CompileOptions) : CompileError → Prop
  | given {path : Text} (hp : path ∈ givenPaths w o) (h : IsImpossible path) :
      Cause w o (.fault impossible)
  | included {inputs : List (Text × Text)} {includer name : Text} {loaded : LoadedUnit Document}
      (hn : Named w o inputs)
      (hr : (loader w (o.absoluteRoots w.cwdPath)).Reachable (inputs.map Prod.snd) includer)
      (hl : (loader w (o.absoluteRoots w.cwdPath)).load includer none = .ok loaded)
      (hi : name ∈ loaded.document.includes) (h : IsImpossible name) :
      Cause w o (.fault impossible)
  | unplaced {inputs : List (Text × Text)} {units : List (Text × LoadedUnit Document)}
      (hn : Named w o inputs) (hu : closure w o inputs = .loaded units) (hne : units ≠ [])
      (h : o.outDir = none) : Cause w o unplaceable
  | unprinted {inputs : List (Text × Text)} {units : List (Text × LoadedUnit Document)}
      {u : Text × LoadedUnit Document} (hn : Named w o inputs)
      (hu : closure w o inputs = .loaded units) (hmem : u ∈ units)
      (h : u.2.document.toJson.hasLongNumber = true) : Cause w o unprintable

variable {inputs : List (Text × Text)}

theorem possible_of_selected {paths : List Text} {path : Text}
    (h : (selectInputs w o.inputs o.excludes).result = .ok paths) (hp : path ∈ paths) :
    ¬ IsImpossible path := by
  rw [selectInputs_result] at h
  split at h
  · cases h
    obtain ⟨pattern, -, hmem⟩ := Selection.mem_ofPatterns hp
    exact Workspace.possible_of_isFile (Glob.isFile_of_mem_files hmem)
  · cases h

theorem Cause.of_input (hn : Named w o inputs) {name : Text} (hname : name ∈ inputs.map Prod.snd)
    (h : IsImpossible name) : Cause w o (.fault impossible) := by
  obtain ⟨paths, hs, hnamed⟩ := hn
  obtain ⟨rfl, hall⟩ := nameInputs_eq_ok hnamed
  obtain ⟨input, hi, rfl⟩ := List.mem_map.1 hname
  have hpath := LogicalName.mem_of_resolve (hall input hi) h
  rcases of_mem_absolute (by decide) (by decide) hpath with hcwd | hown
  · exact .given List.mem_cons_self hcwd
  · exact absurd hown (possible_of_selected hs (List.mem_map_of_mem hi))

theorem Cause.of_root {root : Text} (hr : root ∈ o.absoluteRoots w.cwdPath)
    (h : IsImpossible root) : Cause w o (.fault impossible) := by
  obtain ⟨path, hp, rfl⟩ := List.mem_map.1 hr
  rcases of_mem_absolute (by decide) (by decide) h with hcwd | hown
  · exact .given List.mem_cons_self hcwd
  · refine .given (?_ : path ∈ givenPaths w o) hown
    rcases List.mem_append.1 hp with hp | hp <;> simp [givenPaths, hp]

theorem Cause.of_closure (hn : Named w o inputs) {f : Fault}
    (h : closure w o inputs = .failed (.fault f)) : Cause w o (.fault f) := by
  obtain ⟨name, origin, ho, hl, -⟩ := Loader.loadClosure_failed _ h
  obtain ⟨root, hroot, hread⟩ := loadUnit_fault hl
  obtain ⟨himp, rfl⟩ := Workspace.readText_eq_broken.1 hread
  rcases LogicalName.impossible_probePath.1 himp with hr | hname
  · exact .of_root hroot hr
  · cases origin with
    | none => exact .of_input hn ho hname
    | some includer =>
      obtain ⟨-, hreach, loaded, hload, hi⟩ := ho
      exact .included hn hreach hload hi hname

theorem Cause.of_fails {f : Fault} (h : Fails w o (.fault f)) : Cause w o (.fault f) := by
  generalize he : CompileError.fault f = e at h
  cases h with
  | @unexpandable pattern hp h =>
    refine .given (?_ : pattern ∈ givenPaths w o) (Glob.impossible_of_not_expandable h)
    rcases List.mem_append.1 hp with hp | hp <;> simp [givenPaths, hp]
  | unnamed => cases he
  | @unloaded _ f' hn h =>
    cases f' with
    | error => cases he
    | fault f' => exact .of_closure hn h
  | unplaced hn hu hne h => exact .unplaced hn hu hne h
  | unprinted hn hu hd hmem h => exact .unprinted hn hu hmem h

theorem possible_of_loaded {units : List (Text × LoadedUnit Document)}
    (hu : closure w o inputs = .loaded units) {u : Text × LoadedUnit Document} (hmem : u ∈ units) :
    ¬ IsImpossible u.1 := by
  obtain ⟨-, -, hload⟩ := Loader.loadClosure_units _ hu
  have hread := (loadUnit_first (hload u.1 u.2 hmem)).2.1
  exact fun himp =>
    Workspace.possible_of_readText hread (LogicalName.impossible_probePath.2 (.inr himp))

theorem Cause.of_emit (hnormal : ∀ dir, o.outDir = some dir → dir.IsNormal) {p : Plan}
    (hp : (plan w o).result = .ok p) {f : Fault}
    (h : (emit w p.artifacts).result = .error (.fault f)) : Cause w o (.fault f) := by
  -- The units of a plan have possible names, which leaves the output directory.
  obtain ⟨paths, hs, hn, hu, hartifacts⟩ := plan_eq_ok.1 hp
  obtain ⟨reason, hfind, hof⟩ := emit_eq_error.1 h
  rw [CompileError.ofWrite] at hof
  split at hof
  case isFalse => cases hof
  case isTrue hnul =>
  rw [hnul, CompileError.fault.injEq] at hof
  subst hof
  have hreason : some reason ∈ (w.writeArtifacts p.artifacts).2 := by
    obtain ⟨outcome, hmem, hid⟩ := List.exists_of_findSome?_eq_some hfind
    exact hid ▸ hmem
  have hroot : ∀ a ∈ p.artifacts, '\x00' ∉ a.path.root := by
    intro a ha
    obtain ⟨dir, hd, u, -, hpath⟩ := artifactsOf_mem hartifacts ha
    rw [hpath]
    exact (hnormal dir hd).notMem_root (by decide)
  obtain ⟨a, ha, s, hsegment, himp⟩ :=
    Workspace.writeArtifacts_impossible hroot hreason hnul
  obtain ⟨dir, hd, u, humem, hpath⟩ := artifactsOf_mem hartifacts ha
  rw [hpath] at hsegment
  rcases LogicalName.of_mem_artifactPath (by decide) (by decide) hsegment himp with
    ⟨t, ht, hdir⟩ | hname
  · refine .given (?_ : dir.toText ∈ givenPaths w o) ?_
    · simp [givenPaths, hd]
    · exact PathParts.mem_toText (by decide) ht hdir
  · exact absurd hname (possible_of_loaded hu humem)

theorem absoluteRoots_ne_nil (hn : Named w o inputs) {name : Text}
    (hr : (loader w (o.absoluteRoots w.cwdPath)).Reachable (inputs.map Prod.snd) name) :
    o.absoluteRoots w.cwdPath ≠ [] := by
  intro hnil
  cases hr with
  | initial hi =>
    obtain ⟨paths, -, hnamed⟩ := hn
    obtain ⟨input, hmem, rfl⟩ := List.mem_map.1 hi
    obtain ⟨root, hroot, -⟩ := LogicalName.resolve_eq_ok ((nameInputs_eq_ok hnamed).2 input hmem)
    rw [hnil] at hroot
    exact List.not_mem_nil hroot.1
  | included hr hl hi =>
    rw [hnil] at hl
    cases hl

theorem load_impossible {roots : List Text} (hne : roots ≠ []) {name : Text}
    (h : IsImpossible name) (origin : Option Text) :
    (loader w roots).load name origin = .error (.fault impossible) := by
  obtain ⟨root, rest, rfl⟩ := List.exists_cons_of_ne_nil hne
  have hread : w.reader.read (probePath root name) = .broken impossible :=
    Workspace.readText_eq_broken.2 ⟨LogicalName.impossible_probePath.2 (.inr h), rfl⟩
  show (loadUnit w.reader Document.language name origin (root :: rest)).2 = _
  simp only [loadUnit, hread]

theorem closure_of_impossible (hn : Named w o inputs)
    (hall : ∀ name, (loader w (o.absoluteRoots w.cwdPath)).Reachable (inputs.map Prod.snd) name →
      (∃ loaded, (loader w (o.absoluteRoots w.cwdPath)).load name none = .ok loaded) ∨
        IsImpossible name)
    {name : Text}
    (hr : (loader w (o.absoluteRoots w.cwdPath)).Reachable (inputs.map Prod.snd) name)
    (h : IsImpossible name) : closure w o inputs = .failed (.fault impossible) := by
  have hroots := absoluteRoots_ne_nil hn hr
  cases hc : closure w o inputs with
  | loaded units =>
    obtain ⟨-, hkeys, hload⟩ := Loader.loadClosure_units _ hc
    obtain ⟨⟨_, loaded⟩, hmem, rfl⟩ := List.mem_map.1 ((hkeys name).2 hr)
    have hl := hload _ _ hmem
    rw [load_impossible hroots h] at hl
    cases hl
  | cancelled => exact absurd hc (Loader.loadClosure_ne_cancelled _ rfl _)
  | failed f =>
    -- the failure may be that of another name, which then is impossible too
    obtain ⟨name', origin, ho, hl, -⟩ := Loader.loadClosure_failed _ hc
    rcases hall name' ho.reachable with ⟨loaded, hok⟩ | himp
    · have hok' := loadUnit_ok hok origin
      rw [Loader.load] at hl
      rw [hl] at hok'
      cases hok'
    · rw [load_impossible hroots himp, Except.error.injEq] at hl
      rw [hl]

end Compilation

namespace Command

variable {s : Surroundings} {w : Workspace} {arguments : List Text} {c : CommandLine}

theorem run_of_write (h : CommandLine.ofArguments arguments = .ok c) {reason : WriteError}
    (hr : (Compilation.run w (compileOptions s w c)).result = .error (.write reason)) :
    run s w arguments = reported c.json
      (logText c.verbosity (Compilation.run w (compileOptions s w c)).records)
      (Compilation.run w (compileOptions s w c)).workspace (writeDiagnostic reason) := by
  rw [run, h]
  dsimp only
  rw [report, hr]

/-- A command that compiles ends with zero, or it reports a diagnostic and ends with one, or it
crashes. It crashes whenever a stage in front of the writing has a fault, and so whenever a name
that the inputs lead to is impossible and nothing else keeps them from being loaded. -/
theorem run_ends_or_crashes (h : CommandLine.ofArguments arguments = .ok c) :
    ((run s w arguments).ending = .exit 0 ∨
      ((run s w arguments).ending = .exit 1 ∧ ∃ d, run s w arguments = reported c.json
        (logText c.verbosity (Compilation.run w (compileOptions s w c)).records)
        (Compilation.run w (compileOptions s w c)).workspace d) ∨
      ∃ f, (run s w arguments).ending = .crash f ∧
        Compilation.Cause w (compileOptions s w c) (.fault f)) ∧
    (∀ f, Compilation.Fails w (compileOptions s w c) (.fault f) →
      (run s w arguments).ending = .crash f) ∧
    ∀ inputs, Compilation.Named w (compileOptions s w c) inputs →
      (∀ name, (Compilation.loader w ((compileOptions s w c).absoluteRoots w.cwdPath)).Reachable
          (inputs.map Prod.snd) name →
        (∃ loaded, (Compilation.loader w ((compileOptions s w c).absoluteRoots w.cwdPath)).load
          name none = .ok loaded) ∨ IsImpossible name) →
      ∀ name, (Compilation.loader w ((compileOptions s w c).absoluteRoots w.cwdPath)).Reachable
          (inputs.map Prod.snd) name → IsImpossible name →
        (run s w arguments).ending = .crash impossible := by
  have hfault : ∀ f, Compilation.Fails w (compileOptions s w c) (.fault f) →
      (run s w arguments).ending = .crash f :=
    fun f hf => run_ending_of_error h (Compilation.run_of_fails hf).2
  refine ⟨?_, hfault, ?_⟩
  · cases hr : (Compilation.run w (compileOptions s w c)).result with
    | ok outputs =>
      left
      rw [run, h]
      dsimp only
      rw [report, hr]
    | error e =>
      have hending := run_ending_of_error h hr
      right
      cases e with
      | load reason =>
        have hkept := (Compilation.run_of_fails (Compilation.fails_of_load hr)).1
        exact .inl ⟨hending, reason.diagnostic, by rw [hkept, run_of_load h hr]⟩
      | write reason => exact .inl ⟨hending, _, run_of_write h hr⟩
      | fault f =>
        refine .inr ⟨f, hending, ?_⟩
        rcases Compilation.run_eq_error.1 hr with hf | ⟨p, hp, he⟩
        · exact .of_fails hf
        · exact .of_emit (fun dir hd => Compilation.compileOptions_outDir hd) hp he
  · intro inputs hn hall name hreach himp
    exact hfault _ (.unloaded hn (Compilation.closure_of_impossible hn hall hreach himp))

end Command

namespace Unreadable

/-- A file includes one of an impossible name. -/
def trial : Trial where
  tree := ⟨[(["A.ice".toList], .file (encodeText "#include <B\x00.ice>".toList))]⟩
  files := ["A.ice".toList]
  roots := [['.']]

theorem ofArguments_eq : CommandLine.ofArguments trial.arguments = .ok trial.line :=
  rfl

def inputs : List (Text × Text) :=
  [("A.ice".toList, ['A'])]

theorem named : Compilation.Named trial.workspace trial.options inputs :=
  ⟨["A.ice".toList], rfl, rfl⟩

theorem closure_eq :
    Compilation.closure trial.workspace trial.options inputs = .failed (.fault impossible) :=
  Trial.failed (n := 6) (by decide +kernel)

theorem crashes : trial.run.ending = .crash impossible :=
  Command.run_ending_of_error ofArguments_eq
    (Compilation.run_of_fails (.unloaded named closure_eq)).2

end Unreadable

/-- A command that compiles can end with neither zero nor one. -/
theorem Command.not_always_exits :
    ¬ ∀ (s : Surroundings) (w : Workspace) (arguments : List Text) (c : CommandLine),
      CommandLine.ofArguments arguments = .ok c →
      (run s w arguments).ending = .exit 0 ∨ (run s w arguments).ending = .exit 1 := by
  intro h
  rcases h Trial.surroundings Unreadable.trial.workspace _ _ Unreadable.ofArguments_eq with
    hzero | hone
  · cases Unreadable.crashes.symm.trans hzero
  · cases Unreadable.crashes.symm.trans hone

/-- No path that the command is given is impossible, so an included name is. -/
theorem Command.run_ends_or_crashes_unreadable :
    CommandLine.ofArguments Unreadable.trial.arguments = .ok Unreadable.trial.line ∧
    Unreadable.trial.run.ending = .crash impossible ∧
    Compilation.Cause Unreadable.trial.workspace Unreadable.trial.options (.fault impossible) ∧
    ∀ path ∈ Compilation.givenPaths Unreadable.trial.workspace Unreadable.trial.options,
      ¬ IsImpossible path := by
  obtain ⟨hends, hfault, -⟩ :=
    run_ends_or_crashes (s := Trial.surroundings) (w := Unreadable.trial.workspace)
      Unreadable.ofArguments_eq
  have hcrash := hfault impossible (.unloaded Unreadable.named Unreadable.closure_eq)
  refine ⟨Unreadable.ofArguments_eq, hcrash, ?_, by decide⟩
  rw [hcrash] at hends
  rcases hends with hzero | ⟨hone, -⟩ | ⟨f, hf, hcause⟩
  · cases hzero
  · cases hone
  · cases hf
    exact hcause

end SliceIdl
