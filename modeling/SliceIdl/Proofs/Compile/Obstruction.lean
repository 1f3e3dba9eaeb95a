import SliceIdl.Proofs.Compile.Confinement
import SliceIdl.Proofs.Compile.Crashes

/-!
# Writing past obstacles

What stands in the way of one artifact does not keep the others from being written: each unit gets
its attempt, in order, and every attempt that succeeds leaves its file. The first one that fails is
what the command reports, unless the output directory has an impossible path. Then no attempt can
succeed, and the command crashes instead of telling so.
-/

set_option autoImplicit false

namespace SliceIdl
open SliceIdl.Path FileTree

namespace Workspace

/-- Attempts to write what units are rendered to, and the workspace in which they end. -/
structure Emitted (dir : PathParts) (units : List (Text × LoadedUnit Document)) (w : Workspace)
    (attempts : List Attempt) (w' : Workspace) : Prop where
  follow : Attempts w attempts w'
  rendered : units.mapM (Artifact.ofUnit? dir) = some (attempts.map Attempt.artifact)
  failing : ∀ t ∈ attempts, t.failure? ≠ none → ∀ q bytes,
    t.after.tree.find? q = some (.file bytes) ↔ t.before.tree.find? q = some (.file bytes)
  located : ∀ t ∈ attempts, t.failure? = none →
    w'.locate t.artifact.path.toText = .ok (w.destination dir t.artifact.name)
  held : ∀ earlier t later, attempts = earlier ++ t :: later → t.failure? = none →
    (∀ t' ∈ later, t'.failure? = none →
      w.destination dir t'.artifact.name ≠ w.destination dir t.artifact.name) →
    w'.tree.find? (w.destination dir t.artifact.name) = some (.file (encodeText t.artifact.text))

variable {w w' : Workspace} {dir : PathParts} {units : List (Text × LoadedUnit Document)}
  {attempts : List Attempt}

theorem ofUnit?_of_attempt
    (hr : units.mapM (Artifact.ofUnit? dir) = some (attempts.map Attempt.artifact)) {t : Attempt}
    (ht : t ∈ attempts) : ∃ u ∈ units, Artifact.ofUnit? dir u = some t.artifact :=
  mapM_eq_some_mem hr t.artifact (List.mem_map_of_mem ht)

theorem emitted_of_attempts (hd : dir.IsNormal) (h : Attempts w attempts w')
    (hr : units.mapM (Artifact.ofUnit? dir) = some (attempts.map Attempt.artifact)) :
    Emitted dir units w attempts w' := by
  have hcwd : w'.cwd = w.cwd := h.grows.cwd
  -- where the artifact of an attempt is found is the destination of its name
  have hplace : ∀ t ∈ attempts, ∀ {q}, w'.leadsTo q t.artifact →
      q = w.destination dir t.artifact.name := by
    intro t ht q hq
    obtain ⟨u, -, hu⟩ := ofUnit?_of_attempt hr ht
    rw [(Artifact.ofUnit?_eq_some hu).1]
    exact leadsTo_destination hd hcwd hu hq
  refine ⟨h, hr, ?failing, ?located, ?held⟩
  case failing =>
    intro t ht hfail q bytes
    obtain ⟨u, -, hu⟩ := ofUnit?_of_attempt hr ht
    obtain ⟨e, he⟩ := Option.ne_none_iff_exists'.1 hfail
    have hnormal : t.artifact.path.IsNormal := by
      rw [(Artifact.ofUnit?_eq_some hu).2.1]
      exact LogicalName.artifactPath_isNormal hd u.1
    exact (failed_changes hnormal he).file_iff
  case located =>
    intro t ht hnone
    obtain ⟨earlier, later, rfl⟩ := List.append_of_mem ht
    obtain ⟨q, hq, -⟩ := h.held hnone
    exact hplace t ht hq ▸ hq
  case held =>
    rintro earlier t later rfl hnone hlater
    have ht : t ∈ earlier ++ t :: later := by simp
    obtain ⟨q, hq, hfile⟩ := h.held hnone
    rw [← hplace t ht hq]
    refine hfile fun t' ht' hnone' hq' => hlater t' ht' hnone' ?_
    rw [← hplace t' (by simp [ht']) hq', ← hplace t ht hq]

theorem exists_emitted (hd : dir.IsNormal) (w : Workspace)
    (h : ∀ u ∈ units, u.2.document.render? ≠ none) :
    ∃ attempts w', Emitted dir units w attempts w' := by
  obtain ⟨artifacts, hr⟩ : ∃ artifacts, units.mapM (Artifact.ofUnit? dir) = some artifacts := by
    rw [← Option.ne_none_iff_exists', Ne, mapM_eq_none_iff]
    rintro ⟨u, hu, hnone⟩
    exact h u hu (Option.map_eq_none_iff.1 hnone)
  obtain ⟨attempts, w', hattempts, rfl⟩ := exists_attempts w artifacts
  exact ⟨attempts, w', emitted_of_attempts hd hattempts hr⟩

theorem Emitted.possible (h : Emitted dir units w attempts w') (hd : dir.IsNormal)
    (hdir : ¬ IsImpossible dir.toText) (hnames : ∀ u ∈ units, ¬ IsImpossible u.1) {t : Attempt}
    (ht : t ∈ attempts) {e : WriteError} (he : t.failure? = some e) : e.cause ≠ .nulInPath := by
  intro hcause
  obtain ⟨u, hu, hua⟩ := ofUnit?_of_attempt h.rendered ht
  obtain ⟨-, hpath, -⟩ := Artifact.ofUnit?_eq_some hua
  have hroot : '\x00' ∉ t.artifact.path.root := by
    rw [hpath]
    exact hd.notMem_root (by decide)
  obtain ⟨s, hs, himp⟩ := writeArtifact_impossible hroot he hcause
  rw [hpath] at hs
  rcases LogicalName.of_mem_artifactPath (by decide) (by decide) hs himp with
    ⟨part, hpart, hnul⟩ | hname
  · exact hdir (PathParts.mem_toText (by decide) hpart hnul)
  · exact hnames u hu hname

theorem impossible_parent (hd : dir.IsNormal) (hdir : IsImpossible dir.toText) (name : Text) :
    IsImpossible (LogicalName.artifactPath dir name).parent.toText := by
  obtain ⟨part, hpart, hnul⟩ := names_of_impossible (hd.notMem_root (by decide)) hdir
  refine PathParts.mem_toText (by decide) ?_ hnul
  rw [PathParts.parent, artifactPath_dropLast]
  exact List.mem_append_left _ hpart

theorem Emitted.of_impossible (h : Emitted dir units w attempts w') (hd : dir.IsNormal)
    (hdir : IsImpossible dir.toText) :
    w' = w ∧ ∀ t ∈ attempts, ∃ e, t.failure? = some e ∧ e.cause = .nulInPath := by
  refine h.follow.of_impossible fun t ht => ?_
  obtain ⟨u, -, hua⟩ := ofUnit?_of_attempt h.rendered ht
  rw [(Artifact.ofUnit?_eq_some hua).2.1]
  exact impossible_parent hd hdir u.1

end Workspace

namespace Compilation

variable {w : Workspace} {o : CompileOptions} {inputs : List (Text × Text)}
  {units : List (Text × LoadedUnit Document)} {artifacts : List Artifact}

theorem plan_of_loaded {dir : PathParts} (hn : Named w o inputs)
    (hu : closure w o inputs = .loaded units) (hd : o.outDir = some dir)
    (hr : units.mapM (Artifact.ofUnit? dir) = some artifacts) :
    (plan w o).result = .ok ⟨inputs, units, artifacts⟩ := by
  obtain ⟨paths, hs, hnamed⟩ := hn
  refine plan_eq_ok.2 ⟨paths, hs, hnamed, hu, ?_⟩
  rw [hd, artifactsOf, renderUnits, hr]

variable {w' : Workspace} {attempts : List Attempt}

theorem emit_succeeds (h : Attempts w attempts w') :
    (∃ outputs, (emit w (attempts.map Attempt.artifact)).result = .ok outputs) ↔
      ∀ t ∈ attempts, t.failure? = none := by
  rw [emit, h.writeArtifacts_eq]
  dsimp only
  cases hf : (attempts.map Attempt.failure?).findSome? id with
  | none =>
    rw [List.findSome?_eq_none_iff] at hf
    simpa using hf
  | some e =>
    obtain ⟨outcome, hmem, hid⟩ := List.exists_of_findSome?_eq_some hf
    obtain ⟨t, ht, rfl⟩ := List.mem_map.1 hmem
    simp only [reduceCtorEq, exists_false, false_iff]
    intro hall
    rw [id, hall t ht] at hid
    cases hid

/-- The first attempt that fails is the one that is told. -/
theorem emit_first_failure {earlier later : List Attempt} {t : Attempt} {e : WriteError}
    (h : Attempts w (earlier ++ t :: later) w') (hearlier : ∀ t' ∈ earlier, t'.failure? = none)
    (he : t.failure? = some e) :
    (emit w ((earlier ++ t :: later).map Attempt.artifact)).result = .error (.ofWrite e) := by
  have hnone : (earlier.map Attempt.failure?).findSome? id = none := by
    rw [List.findSome?_eq_none_iff]
    simpa using hearlier
  rw [emit, h.writeArtifacts_eq]
  dsimp only
  rw [List.map_append, List.findSome?_append, hnone, List.map_cons, List.findSome?_cons, id, he]
  rfl

end Compilation

namespace Command

/-- For units that can all be rendered, one attempt each is made to write them, in order, and what
fails neither changes a file nor keeps the others from being written. If the units are those that a
command loads, then it ends in the workspace that the attempts leave. It ends with zero just if none
of them fails. Otherwise it reports the first failure and ends with one, unless the path of the
output directory is impossible: then it crashes, and nothing has been written. -/
theorem run_attempts_all {dir : PathParts} (hd : dir.IsNormal) (w : Workspace)
    {units : List (Text × LoadedUnit Document)}
    (hrender : ∀ u ∈ units, u.2.document.render? ≠ none) :
    ∃ attempts w', Workspace.Emitted dir units w attempts w' ∧
      ∀ s arguments c inputs, CommandLine.ofArguments arguments = .ok c →
        Compilation.Named w (compileOptions s w c) inputs →
        Compilation.closure w (compileOptions s w c) inputs = .loaded units →
        (compileOptions s w c).outDir = some dir →
        (run s w arguments).workspace = w' ∧
        ((run s w arguments).ending = .exit 0 ↔ ∀ t ∈ attempts, t.failure? = none) ∧
        ∀ earlier t later e, attempts = earlier ++ t :: later →
          (∀ t' ∈ earlier, t'.failure? = none) → t.failure? = some e →
          (∃ upper, upper <+: t.artifact.path.parts ∧
            e.path = PathParts.toText ⟨t.artifact.path.root, upper⟩) ∧
          (¬ IsImpossible dir.toText → (run s w arguments).ending = .exit 1 ∧
            run s w arguments = reported c.json
              (logText c.verbosity (Compilation.run w (compileOptions s w c)).records) w'
              (writeDiagnostic e)) ∧
          (IsImpossible dir.toText →
            (run s w arguments).ending = .crash impossible ∧ w' = w) := by
  obtain ⟨attempts, w', hemitted⟩ := Workspace.exists_emitted hd w hrender
  refine ⟨attempts, w', hemitted, ?_⟩
  intro s arguments c inputs hc hn hu hdir
  have hplan := Compilation.plan_of_loaded hn hu hdir hemitted.rendered
  obtain ⟨hworkspace, hresult⟩ := Compilation.run_of_plan hplan
  have hw : (Compilation.run w (compileOptions s w c)).workspace = w' := by
    rw [hworkspace, hemitted.follow.writeArtifacts_eq]
  refine ⟨(run_workspace hc).trans hw, ?zero, ?failure⟩
  case zero =>
    rw [exit_zero_iff hc, ← Compilation.emit_succeeds hemitted.follow]
    constructor
    · rintro ⟨p, outputs, hp, he⟩
      rw [hplan, Except.ok.injEq] at hp
      subst hp
      exact ⟨outputs, he⟩
    · rintro ⟨outputs, he⟩
      exact ⟨_, outputs, hplan, he⟩
  case failure =>
    rintro earlier t later e rfl hearlier he
    have ht : t ∈ earlier ++ t :: later := by simp
    rw [Compilation.emit_first_failure hemitted.follow hearlier he] at hresult
    refine ⟨Attempt.failed_path he, fun hpossible => ?_, fun himp => ?_⟩
    · have hcause := hemitted.possible hd hpossible
        (fun u hmem => Compilation.possible_of_loaded hu hmem) ht he
      rw [CompileError.ofWrite, if_neg hcause] at hresult
      exact ⟨run_ending_of_error hc hresult, by rw [run_of_write hc hresult, hw]⟩
    · obtain ⟨hsame, hall⟩ := hemitted.of_impossible hd himp
      obtain ⟨e', he', hcause⟩ := hall t ht
      rw [he, Option.some.injEq] at he'
      subst he'
      rw [CompileError.ofWrite, if_pos hcause, hcause] at hresult
      exact ⟨run_ending_of_error hc hresult, hsame⟩

end Command

namespace Obstructed

/-- Three empty files. The directory that the artifact of the second one needs has the path of the
artifact of the first one. -/
def trial : Trial where
  tree := ⟨[(["A.ice".toList], .file (encodeText [])),
    (["A.json".toList], .directory),
    (["A.json".toList, "B.ice".toList], .file (encodeText [])),
    (["C.ice".toList], .file (encodeText []))]⟩
  files := ["A.ice".toList, "A.json/B.ice".toList, "C.ice".toList]
  roots := [['.']]
  outDir := .path ['o']

theorem ofArguments_eq : CommandLine.ofArguments trial.arguments = .ok trial.line :=
  rfl

def outDir : PathParts := ⟨[], [['o']]⟩

def inputs : List (Text × Text) :=
  [("A.ice".toList, ['A']), ("A.json/B.ice".toList, "A.json/B".toList), ("C.ice".toList, ['C'])]

theorem named : Compilation.Named trial.workspace trial.options inputs :=
  ⟨trial.files, rfl, rfl⟩

def units : List (Text × LoadedUnit Document) :=
  (trial.state 9 (inputs.map Prod.snd)).units

def artifacts : List Artifact :=
  [⟨['A'], ⟨[], [['o'], "A.json".toList]⟩, Trial.emptyText⟩,
    ⟨"A.json/B".toList, ⟨[], [['o'], "A.json".toList, "B.json".toList]⟩, Trial.emptyText⟩,
    ⟨['C'], ⟨[], [['o'], "C.json".toList]⟩, Trial.emptyText⟩]

theorem compiled : Compilation.closure trial.workspace trial.options inputs = .loaded units ∧
    units.mapM (Artifact.ofUnit? outDir) = some artifacts :=
  ⟨Trial.loaded (by decide +kernel), by decide +kernel⟩

def failure : WriteError := ⟨"o/A.json".toList, .alreadyExists⟩

theorem outcomes_eq :
    (trial.workspace.writeArtifacts artifacts).2 = [none, some failure, none] :=
  rfl

end Obstructed

/-- The second artifact cannot be written, which is reported, and the third one still is. -/
theorem Command.run_attempts_all_obstructed :
    Obstructed.trial.run.ending = .exit 1 ∧
    (∃ log, Obstructed.trial.run =
      reported false log Obstructed.trial.run.workspace (writeDiagnostic Obstructed.failure)) ∧
    Obstructed.trial.run.workspace.tree.find? [['o'], "C.json".toList] =
      some (.file (encodeText Trial.emptyText)) := by
  obtain ⟨hclosure, hrendered⟩ := Obstructed.compiled
  have hnormal : Obstructed.outDir.IsNormal := PathParts.ofText_isNormal ['o']
  have hrender : ∀ u ∈ Obstructed.units, u.2.document.render? ≠ none := by
    intro u hu hrefused
    have hunit : Artifact.ofUnit? Obstructed.outDir u = none := by
      rw [Artifact.ofUnit?, hrefused, Option.map_none]
    have hnone := mapM_eq_none_iff.2 ⟨u, hu, hunit⟩
    rw [hrendered] at hnone
    cases hnone
  obtain ⟨attempts, w', hemitted, hruns⟩ :=
    run_attempts_all hnormal Obstructed.trial.workspace hrender
  obtain ⟨hworkspace, -, hfirst⟩ := hruns Trial.surroundings Obstructed.trial.arguments
    Obstructed.trial.line Obstructed.inputs Obstructed.ofArguments_eq Obstructed.named
    hclosure rfl
  have hartifacts := hemitted.rendered
  rw [hrendered, Option.some.injEq] at hartifacts
  have hfailures := Obstructed.outcomes_eq
  rw [hartifacts, hemitted.follow.writeArtifacts_eq] at hfailures
  simp only [List.map_eq_cons_iff, List.map_eq_nil_iff] at hfailures
  obtain ⟨ta, _, rfl, hta, tb, _, rfl, htb, tc, _, rfl, htc, rfl⟩ := hfailures
  obtain ⟨-, hpossible, -⟩ := hfirst [ta] tb [tc] _ rfl (by simpa using hta) htb
  obtain ⟨hending, hreported⟩ := hpossible (by decide)
  -- the third attempt succeeds, and no other one comes after it
  have hlast := hemitted.held [ta, tb] tc [] rfl htc (by simp)
  simp only [Obstructed.artifacts, List.map_cons, List.map_nil, List.cons.injEq, and_true]
    at hartifacts
  obtain ⟨-, -, hlastArtifact⟩ := hartifacts
  rw [← hlastArtifact] at hlast
  rw [Trial.run, hworkspace]
  exact ⟨hending, ⟨_, hreported⟩, hlast⟩

namespace Unopenable

/-- The output directory has an impossible path. -/
def outDir : PathParts := ⟨[], ["o\x00".toList]⟩

def trial : Trial where
  tree := ⟨[(["A.ice".toList], .file (encodeText []))]⟩
  files := ["A.ice".toList]
  roots := [['.']]
  outDir := .path outDir.toText

theorem ofArguments_eq : CommandLine.ofArguments trial.arguments = .ok trial.line :=
  rfl

theorem outDir_eq : trial.options.outDir = some outDir :=
  rfl

def inputs : List (Text × Text) :=
  [("A.ice".toList, ['A'])]

theorem named : Compilation.Named trial.workspace trial.options inputs :=
  ⟨trial.files, rfl, rfl⟩

def units : List (Text × LoadedUnit Document) :=
  (trial.state 3 [['A']]).units

def artifacts : List Artifact :=
  [⟨['A'], ⟨[], ["o\x00".toList, "A.json".toList]⟩, Trial.emptyText⟩]

theorem compiled : Compilation.closure trial.workspace trial.options inputs = .loaded units ∧
    units.mapM (Artifact.ofUnit? outDir) = some artifacts :=
  ⟨Trial.loaded (by decide +kernel), by decide +kernel⟩

theorem crashes : trial.run.ending = .crash impossible := by
  obtain ⟨hclosure, hrendered⟩ := compiled
  have hplan := Compilation.plan_of_loaded named hclosure outDir_eq hrendered
  have hresult := (Compilation.run_of_plan hplan).2
  have hemit : (Compilation.emit trial.workspace artifacts).result = .error (.fault impossible) :=
    rfl
  rw [hemit] at hresult
  exact Command.run_ending_of_error ofArguments_eq hresult

end Unopenable

/-- A failure to write can end a command otherwise than with one. -/
theorem Command.not_always_reported :
    ¬ ∀ (s : Surroundings) (w w' : Workspace) (arguments : List Text) (c : CommandLine)
        (dir : PathParts) (inputs : List (Text × Text))
        (units : List (Text × LoadedUnit Document)) (attempts : List Attempt),
      CommandLine.ofArguments arguments = .ok c →
      (compileOptions s w c).outDir = some dir →
      Compilation.Named w (compileOptions s w c) inputs →
      Compilation.closure w (compileOptions s w c) inputs = .loaded units →
      Workspace.Emitted dir units w attempts w' →
      (∃ t ∈ attempts, t.failure? ≠ none) →
      (run s w arguments).ending = .exit 1 := by
  intro h
  have hnormal : Unopenable.outDir.IsNormal :=
    PathParts.ofText_isNormal Unopenable.outDir.toText
  obtain ⟨attempts, w', hattempts, hartifacts⟩ :=
    exists_attempts Unopenable.trial.workspace Unopenable.artifacts
  have hemitted : Workspace.Emitted Unopenable.outDir Unopenable.units
      Unopenable.trial.workspace attempts w' :=
    Workspace.emitted_of_attempts hnormal hattempts (hartifacts ▸ Unopenable.compiled.2)
  obtain ⟨t, _, rfl, -⟩ := List.map_eq_cons_iff.1 hartifacts
  obtain ⟨e, he, -⟩ := (hemitted.of_impossible hnormal (by decide)).2 t List.mem_cons_self
  have hone := h _ _ _ _ _ _ _ _ _ Unopenable.ofArguments_eq Unopenable.outDir_eq
    Unopenable.named Unopenable.compiled.1 hemitted ⟨t, List.mem_cons_self, by simp [he]⟩
  cases Unopenable.crashes.symm.trans hone

end SliceIdl
