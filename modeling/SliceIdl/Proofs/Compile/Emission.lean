import SliceIdl.Proofs.Compile.Trials
import SliceIdl.Proofs.Path.Destination
import SliceIdl.Proofs.Workspace.Attempts

/-!
# What a command leaves in the output directory

Every unit of a plan is rendered, and what is rendered is written in the order of the units. So the
file that a unit goes to holds the compiled form of that unit unless a later one goes to the same
file. Units of plain names go to files of their own; a name that an include spells with `..` can
lead to the file of another one.
-/

set_option autoImplicit false

namespace SliceIdl

theorem mapM_eq_some_mem {α β : Type} {f : α → Option β} {xs : List α} {ys : List β}
    (h : xs.mapM f = some ys) : ∀ y ∈ ys, ∃ x ∈ xs, f x = some y := by
  induction xs generalizing ys with
  | nil =>
    cases h
    exact fun y hy => absurd hy List.not_mem_nil
  | cons x xs ih =>
    simp only [List.mapM_cons, Option.bind_eq_bind, Option.bind_eq_some_iff] at h
    obtain ⟨z, hz, zs, hzs, hy⟩ := h
    cases hy
    intro y hy
    rcases List.mem_cons.1 hy with rfl | hy
    · exact ⟨x, List.mem_cons_self, hz⟩
    · obtain ⟨x', hx, hf⟩ := ih hzs y hy
      exact ⟨x', List.mem_cons_of_mem _ hx, hf⟩

theorem mapM_eq_some_split {α β : Type} {f : α → Option β} {before after : List α} {x : α}
    {ys : List β} (h : (before ++ x :: after).mapM f = some ys) :
    ∃ before' y after', ys = before' ++ y :: after' ∧ f x = some y ∧
      after.mapM f = some after' := by
  simp only [List.mapM_append, List.mapM_cons, Option.bind_eq_bind, Option.bind_eq_some_iff] at h
  obtain ⟨before', -, rest, ⟨y, hy, after', ha, hr⟩, hys⟩ := h
  cases hr
  cases hys
  exact ⟨before', y, after', rfl, hy, ha⟩

namespace Artifact

theorem ofUnit?_eq_some {dir : PathParts} {u : Text × LoadedUnit Document} {a : Artifact}
    (h : ofUnit? dir u = some a) :
    a.name = u.1 ∧ a.path = LogicalName.artifactPath dir u.1 ∧
      u.2.document.render? = some a.text := by
  obtain ⟨text, ht, rfl⟩ := Option.map_eq_some_iff.1 h
  exact ⟨rfl, rfl, ht⟩

theorem names_of_mapM {dir : PathParts} {units : List (Text × LoadedUnit Document)}
    {artifacts : List Artifact} (h : units.mapM (ofUnit? dir) = some artifacts) :
    units.map Prod.fst = artifacts.map Artifact.name := by
  induction units generalizing artifacts with
  | nil =>
    cases h
    rfl
  | cons u units ih =>
    simp only [List.mapM_cons, Option.bind_eq_bind, Option.bind_eq_some_iff] at h
    obtain ⟨a, ha, rest, hrest, he⟩ := h
    cases he
    rw [List.map_cons, List.map_cons, ih hrest, (ofUnit?_eq_some ha).1]

end Artifact

namespace Compilation

variable {w : Workspace} {o : CompileOptions}

theorem artifactsOf_eq_ok {outDir : Option PathParts} {units : List (Text × LoadedUnit Document)}
    {artifacts : List Artifact} (h : (artifactsOf outDir units).result = .ok artifacts)
    (hne : units ≠ []) :
    ∃ dir, outDir = some dir ∧ units.mapM (Artifact.ofUnit? dir) = some artifacts := by
  cases outDir with
  | none => simp [artifactsOf, hne] at h
  | some dir =>
    rw [artifactsOf, renderUnits] at h
    cases hm : units.mapM (Artifact.ofUnit? dir) with
    | none => simp [hm] at h
    | some rendered =>
      simp only [hm, Except.ok.injEq] at h
      exact ⟨dir, rfl, h ▸ hm⟩

theorem artifactsOf_mem {outDir : Option PathParts} {units : List (Text × LoadedUnit Document)}
    {artifacts : List Artifact} (h : (artifactsOf outDir units).result = .ok artifacts)
    {a : Artifact} (ha : a ∈ artifacts) :
    ∃ dir, outDir = some dir ∧ ∃ u ∈ units, a.path = LogicalName.artifactPath dir u.1 := by
  by_cases hne : units = []
  · subst hne
    have hnil : artifacts = [] := by
      cases outDir <;> cases h <;> rfl
    rw [hnil] at ha
    cases ha
  · obtain ⟨dir, hd, hm⟩ := artifactsOf_eq_ok h hne
    obtain ⟨u, hu, hua⟩ := mapM_eq_some_mem hm a ha
    exact ⟨dir, hd, u, hu, (Artifact.ofUnit?_eq_some hua).2.1⟩

theorem emit_eq_ok {artifacts : List Artifact} {outputs : List (Text × PathParts)}
    (h : (emit w artifacts).result = .ok outputs) :
    (emit w artifacts).workspace = (w.writeArtifacts artifacts).1 ∧
      ∀ e ∈ (w.writeArtifacts artifacts).2, e = none := by
  rw [emit] at h ⊢
  dsimp only at h ⊢
  cases hf : (w.writeArtifacts artifacts).2.findSome? id with
  | some e => simp [hf] at h
  | none => exact ⟨rfl, List.findSome?_eq_none_iff.1 hf⟩

theorem plan_parse {p : Plan} (h : (plan w o).result = .ok p) {u : Text × LoadedUnit Document}
    (hu : u ∈ p.units) : Document.parse u.2.contents = .ok u.2.document := by
  obtain ⟨paths, -, -, hunits, -⟩ := plan_eq_ok.1 h
  obtain ⟨-, -, hload⟩ := Loader.loadClosure_units _ hunits
  obtain ⟨-, -, hp⟩ := loadUnit_first (hload u.1 u.2 hu)
  have hmap : (Document.parse u.2.contents).mapError SyntaxError.toFailure = .ok u.2.document := hp
  cases hd : Document.parse u.2.contents with
  | error e =>
    rw [hd] at hmap
    cases hmap
  | ok d =>
    rw [hd] at hmap
    cases hmap
    rfl

theorem compileOptions_outDir {s : Surroundings} {c : CommandLine} {dir : PathParts}
    (h : (Command.compileOptions s w c).outDir = some dir) : dir.IsNormal := by
  rw [Command.compileOptions] at h
  dsimp only at h
  split at h
  · cases h
    exact PathParts.ofText_isNormal _
  · cases h
  · cases h
    refine (PathParts.ofText_isNormal _).extend fun t ht => ?_
    rw [List.mem_singleton.1 ht]
    decide

end Compilation

namespace Workspace
open Compilation

/-- In the file that a unit goes to there is the rendered document of the unit's text. -/
def HoldsUnit (w : Workspace) (outDir : PathParts) (u : Text × LoadedUnit Document) : Prop :=
  ∃ document text, Document.parse u.2.contents = .ok document ∧ document.render? = some text ∧
    w.read (LogicalName.artifactPath outDir u.1).toText = .ok (encodeText text)

variable {w : Workspace} {dir : PathParts}

theorem read_eq_ok {path : Text} {p : Place} {bytes : ByteArray} (hl : w.locate path = .ok p)
    (hf : w.tree.find? p = some (.file bytes)) : w.read path = .ok bytes := by
  simp [read, hl, hf, bind, Except.bind]

theorem leadsTo_destination {w' : Workspace} (hd : dir.IsNormal) (hcwd : w'.cwd = w.cwd)
    {u : Text × LoadedUnit Document} {a : Artifact} (hu : Artifact.ofUnit? dir u = some a)
    {q : Place} (hq : w'.leadsTo q a) : q = w.destination dir u.1 := by
  obtain ⟨-, hpath, -⟩ := Artifact.ofUnit?_eq_some hu
  have hwalk := FileTree.walk_eq_descend (locate_eq_ok.1 hq).2
  have horigin (path : Text) : w'.origin path = w.origin path := by rw [origin, origin, hcwd]
  rwa [horigin, hpath, descend_artifactPath hd] at hwalk

theorem writeArtifacts_located {artifacts : List Artifact} (hd : dir.IsNormal)
    (h : ∀ e ∈ (w.writeArtifacts artifacts).2, e = none) {u : Text × LoadedUnit Document}
    {a : Artifact} (ha : a ∈ artifacts) (hu : Artifact.ofUnit? dir u = some a) :
    (w.writeArtifacts artifacts).1.leadsTo (w.destination dir u.1) a := by
  obtain ⟨hfound, hgrows⟩ := writeArtifacts_grows h
  obtain ⟨q, hq⟩ := hfound a ha
  exact leadsTo_destination hd hgrows.cwd hu hq ▸ hq

section

variable {units : List (Text × LoadedUnit Document)} {artifacts : List Artifact}

theorem rendered_located (hd : dir.IsNormal)
    (hr : units.mapM (Artifact.ofUnit? dir) = some artifacts)
    (h : ∀ e ∈ (w.writeArtifacts artifacts).2, e = none) :
    ∀ u ∈ units, (w.writeArtifacts artifacts).1.locate
      (LogicalName.artifactPath dir u.1).toText = .ok (w.destination dir u.1) := by
  intro u hu
  obtain ⟨before, after, rfl⟩ := List.append_of_mem hu
  obtain ⟨before', a, after', ha, hua, -⟩ := mapM_eq_some_split hr
  have hmem : a ∈ artifacts := by simp [ha]
  have hlocated := writeArtifacts_located hd h hmem hua
  rwa [leadsTo, (Artifact.ofUnit?_eq_some hua).2.1] at hlocated

theorem rendered_find? (hd : dir.IsNormal)
    (hr : units.mapM (Artifact.ofUnit? dir) = some artifacts)
    (h : ∀ e ∈ (w.writeArtifacts artifacts).2, e = none)
    {before after : List (Text × LoadedUnit Document)} {u : Text × LoadedUnit Document}
    (hu : units = before ++ u :: after)
    (hlater : ∀ v ∈ after, w.destination dir v.1 ≠ w.destination dir u.1) :
    ∃ text, u.2.document.render? = some text ∧
      (w.writeArtifacts artifacts).1.tree.find? (w.destination dir u.1) =
        some (.file (encodeText text)) := by
  subst hu
  obtain ⟨before', a, after', ha, hua, hafter⟩ := mapM_eq_some_split hr
  obtain ⟨-, -, htext⟩ := Artifact.ofUnit?_eq_some hua
  have hmem : a ∈ artifacts := by simp [ha]
  have hlocated := writeArtifacts_located hd h hmem hua
  have hothers : ∀ b ∈ after', ¬ (w.writeArtifacts artifacts).1.leadsTo
      (w.destination dir u.1) b := by
    intro b hb hleads
    obtain ⟨v, hv, hvb⟩ := mapM_eq_some_mem hafter b hb
    have hbmem : b ∈ artifacts := by simp [ha, hb]
    have hbplace := writeArtifacts_located hd h hbmem hvb
    exact hlater v hv (Except.ok.inj (hbplace.symm.trans hleads))
  rw [ha] at h hlocated hothers ⊢
  exact ⟨_, htext, writeArtifacts_find? h hlocated hothers⟩

end

end Workspace

namespace Command

variable {s : Surroundings} {w : Workspace} {arguments : List Text} {c : CommandLine}

theorem run_workspace (h : CommandLine.ofArguments arguments = .ok c) :
    (run s w arguments).workspace = (Compilation.run w (compileOptions s w c)).workspace := by
  rw [run, h]
  dsimp only
  rw [report]
  cases (Compilation.run w (compileOptions s w c)).result with
  | ok outputs => rfl
  | error e =>
    cases e with
    | load e => simp [reported, apply_ite CommandResult.workspace]
    | write e => simp [reported, apply_ite CommandResult.workspace]
    | fault f => rfl

/-- A command that ends with zero has written all artifacts of its plan. -/
theorem exit_zero_writes (h : CommandLine.ofArguments arguments = .ok c)
    (he : (run s w arguments).ending = .exit 0) :
    ∃ p, (Compilation.plan w (compileOptions s w c)).result = .ok p ∧
      (run s w arguments).workspace = (w.writeArtifacts p.artifacts).1 ∧
      ∀ e ∈ (w.writeArtifacts p.artifacts).2, e = none := by
  obtain ⟨p, outputs, hp, hemit⟩ := (exit_zero_iff h).1 he
  obtain ⟨hw, hall⟩ := Compilation.emit_eq_ok hemit
  refine ⟨p, hp, ?_, hall⟩
  rw [run_workspace h, Compilation.run, hp]
  exact hw

/-- After a command that ends with zero, the path of every unit's artifact leads to the destination
of its name. The file there holds the rendered document of the unit's text, unless a later unit has
the same destination. Units of plain names have different destinations. -/
theorem exit_zero_artifacts (h : CommandLine.ofArguments arguments = .ok c)
    (he : (run s w arguments).ending = .exit 0) :
    ∃ p, (Compilation.plan w (compileOptions s w c)).result = .ok p ∧
      (p.units.map Prod.fst).Nodup ∧
      (p.units ≠ [] → ∃ dir, (compileOptions s w c).outDir = some dir ∧
        (∀ u ∈ p.units, (run s w arguments).workspace.locate
          (LogicalName.artifactPath dir u.1).toText = .ok (w.destination dir u.1)) ∧
        (∀ before u after, p.units = before ++ u :: after →
          (∀ v ∈ after, w.destination dir v.1 ≠ w.destination dir u.1) →
          (run s w arguments).workspace.HoldsUnit dir u) ∧
        ∀ u ∈ p.units, ∀ v ∈ p.units, LogicalName.IsPlain u.1 → LogicalName.IsPlain v.1 →
          u.1 ≠ v.1 → w.destination dir u.1 ≠ w.destination dir v.1) := by
  obtain ⟨p, hp, hw, hwritten⟩ := exit_zero_writes h he
  obtain ⟨paths, -, -, hunits, hartifacts⟩ := Compilation.plan_eq_ok.1 hp
  obtain ⟨hnodup, -, -⟩ := Loader.loadClosure_units _ hunits
  refine ⟨p, hp, hnodup, fun hne => ?_⟩
  obtain ⟨dir, hdir, hrendered⟩ := Compilation.artifactsOf_eq_ok hartifacts hne
  have hnormal := Compilation.compileOptions_outDir hdir
  rw [hw]
  refine ⟨dir, hdir, ?located, ?held, ?plain⟩
  case located => exact Workspace.rendered_located hnormal hrendered hwritten
  case held =>
    intro before u after hsplit hlater
    have hmem : u ∈ p.units := by simp [hsplit]
    have hlocated := Workspace.rendered_located hnormal hrendered hwritten u hmem
    obtain ⟨text, htext, hfile⟩ := Workspace.rendered_find? hnormal hrendered hwritten hsplit hlater
    exact ⟨_, text, Compilation.plan_parse hp hmem, htext, Workspace.read_eq_ok hlocated hfile⟩
  case plain =>
    intro u _ v _ hu hv hne' hsame
    exact hne' (Workspace.destination_injective hu hv hsame)

end Command

namespace Colliding

/-- A file below the root includes another one whose name leads to the same file below the output
directory. -/
def trial : Trial where
  tree := ⟨[([['r']], .directory), ([['o']], .directory),
    ([['r'], "A.ice".toList], .file (encodeText "#include <../o/A.ice>".toList)),
    ([['o'], "A.ice".toList], .file (encodeText []))]⟩
  files := ["r/A.ice".toList]
  roots := [['r']]
  outDir := .path ['o']

theorem ofArguments_eq : CommandLine.ofArguments trial.arguments = .ok trial.line :=
  rfl

def outDir : PathParts := ⟨[], [['o']]⟩

theorem outDir_eq : trial.options.outDir = some outDir :=
  rfl

def plan : Plan where
  inputs := [("r/A.ice".toList, ['A'])]
  units := (trial.state 6 [['A']]).units
  artifacts :=
    [⟨['A'], ⟨[], [['o'], "A.json".toList]⟩, Trial.textIncluding "../o/A".toList⟩,
      ⟨"../o/A".toList, ⟨[], [['o'], "..".toList, ['o'], "A.json".toList]⟩, Trial.emptyText⟩]

theorem plan_eq : (Compilation.plan trial.workspace trial.options).result = .ok plan :=
  Compilation.plan_eq_ok.2
    ⟨["r/A.ice".toList], rfl, rfl, Trial.loaded (n := 6) (by decide +kernel), by decide +kernel⟩

theorem units_eq : ∃ including included,
    plan.units = [(['A'], including), ("../o/A".toList, included)] ∧
      including.document.render? = some (Trial.textIncluding "../o/A".toList) := by
  obtain ⟨-, -, -, -, hartifacts⟩ := Compilation.plan_eq_ok.1 plan_eq
  have hne : plan.units ≠ [] := by
    intro hnil
    rw [hnil] at hartifacts
    cases hartifacts
  obtain ⟨dir, hdir, hrendered⟩ := Compilation.artifactsOf_eq_ok hartifacts hne
  cases outDir_eq.symm.trans hdir
  have hnames := Artifact.names_of_mapM hrendered
  simp only [plan, List.map_cons, List.map_nil, List.map_eq_cons_iff, List.map_eq_nil_iff] at hnames
  obtain ⟨⟨_, including⟩, _, hunits, rfl, ⟨_, included⟩, _, rfl, rfl, rfl⟩ := hnames
  rw [plan, hunits] at hrendered
  simp only [List.mapM_cons, Option.bind_eq_bind, Option.bind_eq_some_iff] at hrendered
  obtain ⟨a, ha, rest, -, he⟩ := hrendered
  cases he
  exact ⟨including, included, hunits, (Artifact.ofUnit?_eq_some ha).2.2⟩

theorem exits_zero : trial.run.ending = .exit 0 :=
  Trial.exits_zero ofArguments_eq plan_eq (by decide)

theorem read_eq : trial.run.workspace.read (LogicalName.artifactPath outDir ['A']).toText =
    .ok (encodeText Trial.emptyText) := by
  obtain ⟨p, hp, hw, -⟩ := Command.exit_zero_writes ofArguments_eq exits_zero
  cases plan_eq.symm.trans hp
  rw [Trial.run, hw]
  rfl

end Colliding

/-- After a command that ends with zero a unit's file can hold the document of another unit. -/
theorem Command.not_always_held :
    ¬ ∀ (s : Surroundings) (w : Workspace) (arguments : List Text) (c : CommandLine) (p : Plan)
        (dir : PathParts),
      CommandLine.ofArguments arguments = .ok c →
      (run s w arguments).ending = .exit 0 →
      (Compilation.plan w (compileOptions s w c)).result = .ok p →
      (compileOptions s w c).outDir = some dir →
      ∀ u ∈ p.units, (run s w arguments).workspace.HoldsUnit dir u := by
  intro h
  obtain ⟨including, included, hunits, hrendered⟩ := Colliding.units_eq
  have hmem : (['A'], including) ∈ Colliding.plan.units := by simp [hunits]
  obtain ⟨document, text, hparse, hrender, hread⟩ := h _ _ _ _ _ _ Colliding.ofArguments_eq
    Colliding.exits_zero Colliding.plan_eq Colliding.outDir_eq _ hmem
  rw [Compilation.plan_parse Colliding.plan_eq hmem, Except.ok.injEq] at hparse
  rw [← hparse, hrendered, Option.some.injEq] at hrender
  have hother := Colliding.read_eq.symm.trans hread
  rw [← hrender] at hother
  revert hother
  decide

/-- The included file, which is the later unit, is the one that is held. -/
theorem Command.exit_zero_artifacts_colliding :
    CommandLine.ofArguments Colliding.trial.arguments = .ok Colliding.trial.line ∧
    Colliding.trial.run.ending = .exit 0 ∧
    ∃ included,
      Colliding.trial.run.workspace.HoldsUnit Colliding.outDir ("../o/A".toList, included) := by
  obtain ⟨p, hp, -, hall⟩ := exit_zero_artifacts Colliding.ofArguments_eq Colliding.exits_zero
  cases Colliding.plan_eq.symm.trans hp
  obtain ⟨including, included, hunits, -⟩ := Colliding.units_eq
  obtain ⟨dir, hdir, -, hheld, -⟩ := hall (by simp [hunits])
  cases Colliding.outDir_eq.symm.trans hdir
  exact ⟨Colliding.ofArguments_eq, Colliding.exits_zero, included,
    hheld [(['A'], including)] ("../o/A".toList, included) [] hunits (by simp)⟩

end SliceIdl
