import SliceIdl.Proofs.Compile.Frame
import SliceIdl.Proofs.Compile.Outcome
import SliceIdl.Proofs.Compile.Trials
import SliceIdl.Proofs.Load.Answers
import SliceIdl.Proofs.Workspace.Rewriting
import SliceIdl.Proofs.Workspace.Matches

/-!
# Running a command again

The first run makes directories and writes artifacts, wherever they go. None of that is the path of
a source file, and no path without `..` that led to a file before leads elsewhere now. So the same
files are selected and excluded, they read the same, and the second run has the same plan. Its
artifacts have their places already and are written into them once more.
-/

set_option autoImplicit false

namespace SliceIdl
open SliceIdl.Path

namespace Glob
open Workspace

variable {w w' : Workspace} {pattern path : Text}

theorem mem_files_again (h : w.Emits w') (hw : w.WellFormed) (hw' : w'.WellFormed)
    (hp : StaysDown pattern) (hs : sourceExtension <:+ pattern) :
    path ∈ files w' pattern ↔ path ∈ files w pattern := by
  have hfile (hstays : StaysDown path) (hsource : sourceExtension <:+ path) :
      w'.isFile path ↔ w.isFile path := by
    rw [isFile_iff, isFile_iff]
    exact exists_congr fun bytes => h.read_iff hw hstays hsource
  constructor
  · intro hm
    have hf := (hfile (stays_of_mem_files hw' hp hm) (source_of_mem_files hw' hs hm)).1
      (isFile_of_mem_files hm)
    exact mem_files hw' hw hm hf
  · intro hm
    have hf := (hfile (stays_of_mem_files hw hp hm) (source_of_mem_files hw hs hm)).2
      (isFile_of_mem_files hm)
    exact mem_files hw hw' hm hf

end Glob

namespace Compilation
open Workspace Glob

variable {w w' : Workspace} {o : CompileOptions} {roots : List Text}

theorem excluded_again (h : w.Emits w') (hw : w.WellFormed) (hw' : w'.WellFormed)
    {excludes : List Text} (he : ∀ pattern ∈ excludes, StaysDown pattern) {path : Text}
    (hp : StaysDown path) (hf : w.isFile path) :
    absolute w.cwdPath path ∈
        Selection.excludedKeys (files w') (absolute w.cwdPath) excludes ↔
      absolute w.cwdPath path ∈
        Selection.excludedKeys (files w) (absolute w.cwdPath) excludes := by
  simp only [Selection.excludedKeys, List.mem_map, List.mem_flatMap]
  constructor
  · rintro ⟨q, ⟨pattern, hpattern, hq⟩, hkey⟩
    have hstays := stays_of_mem_files hw' (he pattern hpattern) hq
    refine ⟨q, ⟨pattern, hpattern, mem_files hw' hw hq ?_⟩, hkey⟩
    obtain ⟨_, hread⟩ := isFile_iff.1 (isFile_of_mem_files hq)
    obtain ⟨r, hr, -⟩ := read_iff.1 hread
    have hplace : w'.place q = w.place path := by
      rw [place, origin, h.cwd]
      exact place_eq_of_absolute_eq hw hstays hp hkey
    obtain ⟨_, hread⟩ := isFile_iff.1 hf
    obtain ⟨r', hr', hfound⟩ := read_iff.1 hread
    obtain rfl : r = r' := by
      rw [locate_of_stays hstays hr, locate_of_stays hp hr', hplace]
    exact isFile_iff.2 ⟨_, read_iff.2 ⟨r, h.locate hw hstays hr (by rw [hfound]; rfl), hfound⟩⟩
  · rintro ⟨q, ⟨pattern, hpattern, hq⟩, hkey⟩
    obtain ⟨bytes, hread⟩ := isFile_iff.1 (isFile_of_mem_files hq)
    obtain ⟨r, hr, hfound⟩ := read_iff.1 hread
    obtain ⟨bytes', hfound'⟩ := Changes.file h hfound
    have hq' : w'.isFile q :=
      isFile_iff.2 ⟨bytes', read_iff.2 ⟨r, (Changes.grows h).locate hr, hfound'⟩⟩
    exact ⟨q, ⟨pattern, hpattern, mem_files hw hw' hq hq'⟩, hkey⟩

theorem select_again (h : w.Emits w') (hw : w.WellFormed) (hw' : w'.WellFormed)
    {patterns excludes : List Text}
    (hp : ∀ pattern ∈ patterns, StaysDown pattern ∧ sourceExtension <:+ pattern)
    (he : ∀ pattern ∈ excludes, StaysDown pattern) :
    (select w' patterns excludes).paths = (select w patterns excludes).paths := by
  have hcwd : w'.cwdPath = w.cwdPath := by rw [cwdPath, cwdPath, h.cwd]
  rw [select, select, hcwd]
  refine Selection.ofPatterns_congr (files_pairwise w') (files_pairwise w) ?_ ?_
  · intro pattern hpattern path
    exact mem_files_again h hw hw' (hp pattern hpattern).1 (hp pattern hpattern).2
  · intro pattern hpattern path hpath
    rw [mem_files_again h hw hw' (hp pattern hpattern).1 (hp pattern hpattern).2] at hpath
    exact excluded_again h hw hw' he (stays_of_mem_files hw (hp pattern hpattern).1 hpath)
      (isFile_of_mem_files hpath)

theorem coarse_readText {path : Text} (hr : ∀ bytes, w.read path ≠ .ok bytes) :
    (w.readText path).coarse =
      if IsImpossible path then .broken impossible else .unreadable .notFound := by
  split
  next himpossible =>
    rw [readText_eq_broken.2 ⟨himpossible, rfl⟩]
    rfl
  next hpossible =>
    cases ho : w.readText path with
    | unreadable e => rfl
    | broken f => exact absurd (readText_eq_broken.1 ho).1 hpossible
    | text t =>
      rw [readText] at ho
      split at ho
      · next e _ => exact absurd ho (e.outcome_ne_text t)
      · next bytes hb => exact absurd hb (hr bytes)

/-- A source file reads the same before and after artifacts are written, if it is readable. -/
theorem readText_again (h : w.Emits w') (hw : w.WellFormed) {path : Text} (hp : StaysDown path)
    (hs : sourceExtension <:+ path) : (w'.readText path).coarse = (w.readText path).coarse := by
  by_cases hread : ∃ bytes, w.read path = .ok bytes
  · obtain ⟨bytes, hb⟩ := hread
    rw [readText, readText, hb, (h.read_iff hw hp hs).2 hb]
  · have hnone : ∀ bytes, w.read path ≠ .ok bytes := fun bytes hb => hread ⟨bytes, hb⟩
    have hnone' : ∀ bytes, w'.read path ≠ .ok bytes :=
      fun bytes hb => hread ⟨bytes, (h.read_iff hw hp hs).1 hb⟩
    rw [coarse_readText hnone, coarse_readText hnone']

theorem loadClosure_again (h : w.Emits w') (hw : w.WellFormed) {names : List Text}
    {units : List (Text × LoadedUnit Document)}
    (hroots : ∀ root ∈ roots, StaysDown root)
    (hnames : ∀ name ∈ names, parentSegment ∉ (segments name).dropLast)
    (hincludes : ∀ u ∈ units, ∀ name ∈ u.2.document.includes, StaysDown name)
    (hl : ((loader w roots).loadClosure names).1 = .loaded units) :
    ((loader w' roots).loadClosure names).1 = .loaded units := by
  rw [← hl]
  have hne : ((loader w roots).loadClosure names).1 ≠ .cancelled := by
    rw [hl]
    exact fun he => by cases he
  refine Loader.loadClosure_of_alike (l := loader w roots) (r := w'.reader) hne ?_
  intro name hname root hroot
  have hfolders : parentSegment ∉ (segments name).dropLast := by
    obtain ⟨-, hreachable, hload⟩ := Loader.loadClosure_units _ hl
    cases hname with
    | initial hn => exact hnames name hn
    | included hn hloaded hi =>
      obtain ⟨⟨n, loaded⟩, hu, rfl⟩ := List.mem_map.1 ((hreachable _).2 hn)
      obtain rfl := Except.ok.inj ((hload _ _ hu).symm.trans hloaded)
      exact fun hm => hincludes _ hu name hi (List.dropLast_subset _ hm)
  exact readText_again h hw
    (stays_join (hroots root hroot) (LogicalName.stays_relativePath hfolders))
    (LogicalName.source_probePath root name)

theorem plan_again (h : w.Emits w') (hw : w.WellFormed) (hw' : w'.WellFormed)
    (hi : ∀ pattern ∈ o.inputs, StaysDown pattern ∧ sourceExtension <:+ pattern)
    (he : ∀ pattern ∈ o.excludes, StaysDown pattern) {p : Plan}
    (hincludes : ∀ u ∈ p.units, ∀ name ∈ u.2.document.includes, StaysDown name)
    (hp : (plan w o).result = .ok p) : (plan w' o).result = .ok p := by
  have hcwd : w'.cwdPath = w.cwdPath := by rw [cwdPath, cwdPath, h.cwd]
  obtain ⟨paths, hselect, hnamed, hload, hartifacts⟩ := plan_eq_ok.1 hp
  refine plan_eq_ok.2 ⟨paths, ?_, hcwd ▸ hnamed, ?_, hartifacts⟩
  · rw [selectInputs_result] at hselect ⊢
    rwa [select_again h hw hw' hi he]
  · rw [hcwd]
    refine loadClosure_again h hw ?_ ?_ hincludes hload
    · intro root hroot
      obtain ⟨path, -, rfl⟩ := List.mem_map.1 hroot
      exact LogicalName.parentSegment_notMem_normalised (isAbsolute_join_absolute rfl path)
    · intro name hname
      obtain ⟨input, hinput, rfl⟩ := List.mem_map.1 hname
      exact LogicalName.parentSegment_notMem_of_resolve rfl ((nameInputs_eq_ok hnamed).2 input hinput)

end Compilation

namespace Compilation
open Workspace

variable {w : Workspace} {o : CompileOptions} {p : Plan}

theorem emit_of_none {artifacts : List Artifact}
    (h : ∀ e ∈ (w.writeArtifacts artifacts).2, e = none) :
    (emit w artifacts).result = .ok (artifacts.map fun a => (a.name, a.path)) := by
  have hnone : (w.writeArtifacts artifacts).2.findSome? id = none :=
    List.findSome?_eq_none_iff.2 h
  rw [emit]
  simp only [hnone]

/-- The artifacts of a plan have places of their own, and are all that writing them changes. -/
theorem artifacts_emits (hd : ∀ dir, o.outDir = some dir → dir.IsNormal)
    (hp : (plan w o).result = .ok p) :
    (∀ a ∈ p.artifacts, a.IsPlaced) ∧ w.Emits (w.writeArtifacts p.artifacts).1 := by
  obtain ⟨-, -, -, -, hartifacts⟩ := plan_eq_ok.1 hp
  have hplaced : ∀ a ∈ p.artifacts, a.IsPlaced := by
    intro a ha
    obtain ⟨dir, hdir, u, -, hpath⟩ := artifactsOf_mem hartifacts ha
    exact ⟨dir, u.1, hd dir hdir, hpath⟩
  refine ⟨hplaced, (writeArtifacts_changes ?_).mono (fun _ _ => trivial) ?_⟩
  · intro a ha
    obtain ⟨dir, name, hnormal, hpath⟩ := hplaced a ha
    exact hpath ▸ LogicalName.artifactPath_isNormal hnormal name
  · rintro q ⟨a, ha, rfl⟩
    obtain ⟨dir, name, -, hpath⟩ := hplaced a ha
    rw [hpath]
    exact ⟨_, _, descend_artifactParts dir name⟩

end Compilation

namespace Command
open Workspace Compilation

variable {s : Surroundings} {w : Workspace} {arguments : List Text} {c : CommandLine}

def again (s : Surroundings) (w : Workspace) (arguments : List Text) : CommandResult :=
  run s (run s w arguments).workspace arguments

/-- A command that has ended with zero after compiling does so again, with the same inputs, units
and artifacts, and what it finds is what it leaves behind. This is so wherever the artifacts go, if
the patterns for inputs are patterns for source files, and none of the patterns and includes leads
back up. -/
theorem exit_zero_again (hw : w.WellFormed)
    (h : CommandLine.ofArguments arguments = .ok c)
    (hfiles : ∀ pattern ∈ c.files, sourceExtension <:+ pattern)
    (hdown : ∀ pattern ∈ c.files ++ c.excludes, StaysDown pattern)
    (he : (run s w arguments).ending = .exit 0) :
    ∃ p, (plan w (compileOptions s w c)).result = .ok p ∧
      ((∀ u ∈ p.units, ∀ name ∈ u.2.document.includes, StaysDown name) →
        (again s w arguments).ending = .exit 0 ∧
        (plan (run s w arguments).workspace
          (compileOptions s (run s w arguments).workspace c)).result = .ok p ∧
        (again s w arguments).workspace.cwd = (run s w arguments).workspace.cwd ∧
        ∀ q, (again s w arguments).workspace.tree.find? q =
          (run s w arguments).workspace.tree.find? q) := by
  obtain ⟨p, hp, hwritten, hnone⟩ := exit_zero_writes h he
  refine ⟨p, hp, fun hincludes => ?_⟩
  obtain ⟨hplaced, hemits⟩ := artifacts_emits (fun dir hdir => compileOptions_outDir hdir) hp
  rw [← hwritten] at hemits
  rw [again]
  generalize (run s w arguments).workspace = w' at hwritten hemits ⊢
  have hw' : w'.WellFormed := hwritten ▸ hw.writeArtifacts p.artifacts
  have hcwd : w'.cwdPath = w.cwdPath := by rw [cwdPath, cwdPath, hemits.cwd]
  have hoptions : compileOptions s w' c = compileOptions s w c := by
    rw [compileOptions, compileOptions, hcwd]
  have hplan : (plan w' (compileOptions s w' c)).result = .ok p := by
    rw [hoptions]
    refine plan_again hemits hw hw' (fun pattern hpattern => ?_) (fun pattern hpattern => ?_)
      hincludes hp
    · exact ⟨hdown pattern (List.mem_append_left _ hpattern), hfiles pattern hpattern⟩
    · exact hdown pattern (List.mem_append_right _ hpattern)
  obtain ⟨hnone', hcwd', hsame⟩ := writeArtifacts_again hplaced hnone hwritten
  have he' : (run s w' arguments).ending = .exit 0 :=
    (exit_zero_iff h).2 ⟨p, _, hplan, emit_of_none hnone'⟩
  obtain ⟨p', hp', hwritten', -⟩ := exit_zero_writes h he'
  obtain rfl : p = p' := Except.ok.inj (hplan.symm.trans hp')
  rw [hwritten']
  exact ⟨he', hplan, hcwd', hsame⟩

end Command

namespace Mirroring

/-- A source file in a directory that has a name like one. -/
def trial : Trial where
  tree := ⟨[([['r']], .directory), ([['r'], "A.ice".toList], .directory),
    ([['r'], "A.ice".toList, "B.ice".toList], .file (encodeText []))]⟩
  files := ["r/**/*.ice".toList]
  roots := [['r']]
  outDir := .path "r/o".toList

theorem ofArguments_eq : CommandLine.ofArguments trial.arguments = .ok trial.line :=
  rfl

def name : Text :=
  "A.ice/B".toList

def plan : Plan where
  inputs := [("r/A.ice/B.ice".toList, name)]
  units := (trial.state 3 [name]).units
  artifacts := [⟨name, ⟨[], [['r'], ['o'], "A.ice".toList, "B.json".toList]⟩, Trial.emptyText⟩]

theorem plan_eq : (Compilation.plan trial.workspace trial.options).result = .ok plan :=
  Compilation.plan_eq_ok.2
    ⟨["r/A.ice/B.ice".toList], by decide +kernel, rfl, Trial.loaded (n := 3) (by decide +kernel),
      by decide +kernel⟩

theorem exits_zero : trial.run.ending = .exit 0 :=
  Trial.exits_zero ofArguments_eq plan_eq (by decide)

end Mirroring

/-- The directory that is made for the artifact matches the pattern too. -/
theorem Command.exit_zero_again_mirroring :
    Mirroring.trial.workspace.WellFormed ∧
    CommandLine.ofArguments Mirroring.trial.arguments = .ok Mirroring.trial.line ∧
    Mirroring.trial.run.ending = .exit 0 ∧
    (again Trial.surroundings Mirroring.trial.workspace Mirroring.trial.arguments).ending =
      .exit 0 ∧
    ∀ q, (again Trial.surroundings Mirroring.trial.workspace
        Mirroring.trial.arguments).workspace.tree.find? q =
      Mirroring.trial.run.workspace.tree.find? q := by
  have hw : Mirroring.trial.workspace.WellFormed := by decide
  obtain ⟨p, hp, hagain⟩ := exit_zero_again hw Mirroring.ofArguments_eq (by decide) (by decide)
    Mirroring.exits_zero
  cases Mirroring.plan_eq.symm.trans hp
  obtain ⟨he, -, -, hsame⟩ := hagain (by decide +kernel)
  exact ⟨hw, Mirroring.ofArguments_eq, Mirroring.exits_zero, he, hsame⟩

end SliceIdl
