import Mathlib.Data.List.TakeWhile
import SliceIdl.Proofs.Compile.Planning

/-!
# How a compilation ends

A compilation that fails before it has a plan does so in one of its stages, after all stages in
front of that one have succeeded, and it leaves its workspace alone. With a plan it writes every
artifact, and only the writing can fail then.
-/

set_option autoImplicit false

namespace SliceIdl
open SliceIdl.Path

theorem Logged.bind_eq_error {α β : Type} {x : Logged α} {f : α → Logged β} {e : CompileError} :
    (x.bind f).result = .error e ↔
      x.result = .error e ∨ ∃ a, x.result = .ok a ∧ (f a).result = .error e := by
  rw [bind]
  cases hx : x.result with
  | error e' => simp
  | ok a => simp

theorem mapM_eq_none_iff {α β : Type} {f : α → Option β} {xs : List α} :
    xs.mapM f = none ↔ ∃ x ∈ xs, f x = none := by
  induction xs with
  | nil => simp
  | cons x xs ih =>
    cases hx : f x with
    | none => simp [hx]
    | some y =>
      rw [List.exists_mem_cons_iff, hx, ← ih]
      cases hm : xs.mapM f <;> simp [hx, hm]

namespace Document

theorem render?_eq_none_iff {d : Document} : d.render? = none ↔ d.toJson.hasLongNumber = true := by
  rw [render?, Json.render?]
  split <;> simp_all

end Document

namespace Compilation

variable {w : Workspace} {o : CompileOptions} {e : CompileError}

theorem selectInputs_result (w : Workspace) (patterns excludes : List Text) :
    (selectInputs w patterns excludes).result =
      if (excludes ++ patterns).all Glob.isExpandable then
        .ok (select w patterns excludes).paths
      else .error unexpandable := by
  rw [selectInputs, List.all_append]
  by_cases hx : excludes.all Glob.isExpandable
  · by_cases hp : patterns.all Glob.isExpandable
    · have hall : patterns.takeWhile Glob.isExpandable = patterns :=
        List.takeWhile_eq_self_iff.2 (List.all_eq_true.1 hp)
      simp [hx, hp, hall]
    · simp [hx, hp]
  · simp [hx]

theorem nameInputs_eq_error {cwd : Text} {roots paths : List Text} :
    (nameInputs cwd roots paths).result = .error e ↔
      ∃ before path after reason, paths = before ++ path :: after ∧
        (∀ p ∈ before, ∃ name, LogicalName.resolve (absolute cwd p) roots = .ok name) ∧
        LogicalName.resolve (absolute cwd path) roots = .error reason ∧ e = .load reason := by
  induction paths with
  | nil => simp [nameInputs]
  | cons path paths ih =>
    rw [nameInputs]
    cases hr : LogicalName.resolve (absolute cwd path) roots with
    | error reason =>
      constructor
      · intro h
        cases h
        exact ⟨[], path, paths, reason, rfl, by simp, hr, rfl⟩
      · rintro ⟨before, q, after, reason', hsplit, hb, hq, rfl⟩
        cases before with
        | nil =>
          obtain ⟨rfl, -⟩ := List.cons_eq_cons.1 hsplit
          rw [hr] at hq
          cases hq
          rfl
        | cons b before =>
          obtain ⟨rfl, -⟩ := List.cons_eq_cons.1 hsplit
          obtain ⟨name, hn⟩ := hb path List.mem_cons_self
          rw [hr] at hn
          cases hn
    | ok name =>
      have hmap : ((nameInputs cwd roots paths).result.map ((path, name) :: ·)) = .error e ↔
          (nameInputs cwd roots paths).result = .error e := by
        cases (nameInputs cwd roots paths).result <;> simp [Except.map]
      dsimp only
      rw [hmap, ih]
      constructor
      · rintro ⟨before, q, after, reason, rfl, hb, hq, he⟩
        exact ⟨path :: before, q, after, reason, rfl, by simpa [hr] using hb, hq, he⟩
      · rintro ⟨before, q, after, reason, hsplit, hb, hq, he⟩
        cases before with
        | nil =>
          obtain ⟨rfl, -⟩ := List.cons_eq_cons.1 hsplit
          rw [hr] at hq
          cases hq
        | cons b before =>
          obtain ⟨rfl, rfl⟩ := List.cons_eq_cons.1 hsplit
          exact ⟨before, q, after, reason, rfl, fun p hp => hb p (List.mem_cons_of_mem _ hp), hq,
            he⟩

theorem loadUnits_eq_error {roots names : List Text} :
    (loadUnits w roots names).result = .error e ↔
      ∃ f, ((loader w roots).loadClosure names).1 = .failed f ∧ e = .ofLoad f := by
  have hc : ((loader w roots).loadClosure names).1 ≠ .cancelled :=
    (loader w roots).loadClosure_ne_cancelled rfl names
  rw [loadUnits]
  cases hr : (loader w roots).loadClosure names with
  | mk result events =>
    cases result with
    | loaded units => simp
    | failed f => simp [eq_comm]
    | cancelled => simp [hr] at hc

def unprintable : CompileError :=
  .fault (.ofValue (digitLimitMessage []))

theorem artifactsOf_eq_error {outDir : Option PathParts}
    {units : List (Text × LoadedUnit Document)} :
    (artifactsOf outDir units).result = .error e ↔
      outDir = none ∧ units ≠ [] ∧ e = unplaceable ∨
      (∃ u ∈ units, u.2.document.toJson.hasLongNumber = true) ∧ outDir.isSome ∧
        e = unprintable := by
  cases outDir with
  | none =>
    cases units with
    | nil => simp [artifactsOf]
    | cons u units =>
      have hr : (artifactsOf none (u :: units)).result = .error unplaceable := rfl
      rw [hr, Except.error.injEq, eq_comm]
      simp
  | some dir =>
    have hlong : (∃ u ∈ units, u.2.document.toJson.hasLongNumber = true) ↔
        units.mapM (Artifact.ofUnit? dir) = none := by
      simp [mapM_eq_none_iff, Artifact.ofUnit?, ← Document.render?_eq_none_iff]
    rw [artifactsOf, renderUnits, hlong]
    cases units.mapM (Artifact.ofUnit? dir) with
    | none =>
      constructor
      · intro h
        cases h
        exact .inr ⟨rfl, rfl, rfl⟩
      · rintro (⟨hn, -⟩ | ⟨-, -, rfl⟩)
        · cases hn
        · rfl
    | some artifacts => simp

def Named (w : Workspace) (o : CompileOptions) (inputs : List (Text × Text)) : Prop :=
  ∃ paths, (selectInputs w o.inputs o.excludes).result = .ok paths ∧
    (nameInputs w.cwdPath (o.absoluteRoots w.cwdPath) paths).result = .ok inputs

def closure (w : Workspace) (o : CompileOptions) (inputs : List (Text × Text)) :
    ClosureResult Document :=
  ((loader w (o.absoluteRoots w.cwdPath)).loadClosure (inputs.map Prod.snd)).1

/-- The ways to fail before anything is written, one for each stage. -/
inductive Fails (w : Workspace) (o : CompileOptions) : CompileError → Prop
  | unexpandable {pattern : Text} (hp : pattern ∈ o.excludes ++ o.inputs)
      (h : Glob.isExpandable pattern = false) : Fails w o unexpandable
  | unnamed {before after : List Text} {path : Text} {reason : LoadError}
      (hs : (selectInputs w o.inputs o.excludes).result = .ok (before ++ path :: after))
      (hb : ∀ p ∈ before, ∃ name,
        LogicalName.resolve (absolute w.cwdPath p) (o.absoluteRoots w.cwdPath) = .ok name)
      (h : LogicalName.resolve (absolute w.cwdPath path) (o.absoluteRoots w.cwdPath) =
        .error reason) : Fails w o (.load reason)
  | unloaded {inputs : List (Text × Text)} {f : LoadFailure} (hn : Named w o inputs)
      (h : closure w o inputs = .failed f) : Fails w o (.ofLoad f)
  | unplaced {inputs : List (Text × Text)} {units : List (Text × LoadedUnit Document)}
      (hn : Named w o inputs) (hu : closure w o inputs = .loaded units) (hne : units ≠ [])
      (h : o.outDir = none) : Fails w o unplaceable
  | unprinted {inputs : List (Text × Text)} {units : List (Text × LoadedUnit Document)}
      {u : Text × LoadedUnit Document} (hn : Named w o inputs)
      (hu : closure w o inputs = .loaded units) (hd : o.outDir.isSome) (hmem : u ∈ units)
      (h : u.2.document.toJson.hasLongNumber = true) : Fails w o unprintable

/-- A compilation has no plan just if one of its stages fails. -/
theorem plan_eq_error : (plan w o).result = .error e ↔ Fails w o e := by
  simp only [plan, Logged.bind_eq_error, reduceCtorEq, and_false, exists_false, or_false,
    loadUnits_eq_ok, loadUnits_eq_error, artifactsOf_eq_error]
  constructor
  · rintro (hs | ⟨paths, hs, hn | ⟨inputs, hn, hu | ⟨units, hu, ha⟩⟩⟩)
    · rw [selectInputs_result] at hs
      split at hs
      · cases hs
      next hall =>
      cases hs
      simp only [List.all_eq_true, not_forall] at hall
      obtain ⟨pattern, hp, h⟩ := hall
      exact .unexpandable hp (by simpa using h)
    · obtain ⟨before, path, after, reason, rfl, hb, h, rfl⟩ := nameInputs_eq_error.1 hn
      exact .unnamed hs hb h
    · obtain ⟨f, hf, rfl⟩ := hu
      exact .unloaded ⟨paths, hs, hn⟩ hf
    · rcases ha with ⟨hd, hne, rfl⟩ | ⟨⟨u, hmem, h⟩, hd, rfl⟩
      · exact .unplaced ⟨paths, hs, hn⟩ hu hne hd
      · exact .unprinted ⟨paths, hs, hn⟩ hu hd hmem h
  · intro h
    cases h with
    | @unexpandable pattern hp h =>
      left
      have hall : ¬ (o.excludes ++ o.inputs).all Glob.isExpandable := by
        intro hall
        simp [List.all_eq_true.1 hall pattern hp] at h
      rw [selectInputs_result, if_neg hall]
    | unnamed hs hb h =>
      exact .inr ⟨_, hs, .inl (nameInputs_eq_error.2 ⟨_, _, _, _, rfl, hb, h, rfl⟩)⟩
    | unloaded hn h =>
      obtain ⟨paths, hs, hn⟩ := hn
      exact .inr ⟨paths, hs, .inr ⟨_, hn, .inl ⟨_, h, rfl⟩⟩⟩
    | unplaced hn hu hne h =>
      obtain ⟨paths, hs, hn⟩ := hn
      exact .inr ⟨paths, hs, .inr ⟨_, hn, .inr ⟨_, hu, .inl ⟨h, hne, rfl⟩⟩⟩⟩
    | unprinted hn hu hd hmem h =>
      obtain ⟨paths, hs, hn⟩ := hn
      exact .inr ⟨paths, hs, .inr ⟨_, hn, .inr ⟨_, hu, .inr ⟨⟨_, hmem, h⟩, hd, rfl⟩⟩⟩⟩

theorem emit_workspace (w : Workspace) (artifacts : List Artifact) :
    (emit w artifacts).workspace = (w.writeArtifacts artifacts).1 := by
  rw [emit]
  dsimp only
  split <;> rfl

theorem emit_eq_error {artifacts : List Artifact} :
    (emit w artifacts).result = .error e ↔
      ∃ reason, (w.writeArtifacts artifacts).2.findSome? id = some reason ∧
        e = .ofWrite reason := by
  rw [emit]
  dsimp only
  cases (w.writeArtifacts artifacts).2.findSome? id <;> simp [eq_comm]

theorem run_of_plan {p : Plan} (h : (plan w o).result = .ok p) :
    (run w o).workspace = (w.writeArtifacts p.artifacts).1 ∧
      (run w o).result = (emit w p.artifacts).result := by
  rw [run]
  dsimp only
  rw [h]
  exact ⟨emit_workspace w p.artifacts, rfl⟩

theorem run_of_fails (h : Fails w o e) :
    (run w o).workspace = w ∧ (run w o).result = .error e := by
  rw [run]
  dsimp only
  rw [plan_eq_error.2 h]
  exact ⟨rfl, rfl⟩

theorem run_eq_error : (run w o).result = .error e ↔
    Fails w o e ∨ ∃ p, (plan w o).result = .ok p ∧ (emit w p.artifacts).result = .error e := by
  cases hp : (plan w o).result with
  | error e' =>
    have hf := plan_eq_error.1 hp
    rw [(run_of_fails hf).2, ← plan_eq_error, hp]
    simp
  | ok p =>
    rw [(run_of_plan hp).2, ← plan_eq_error, hp]
    simp

end Compilation

end SliceIdl
