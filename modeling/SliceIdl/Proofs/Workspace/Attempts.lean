import SliceIdl.Proofs.Workspace.Growth

/-!
# Attempts to write

Artifacts are written one after the other, each in the workspace that the attempt before it has
left, whatever became of that attempt. What one has written that succeeds is there until a later one
succeeds at the same place. So if all of them succeed, each artifact is found, and the last one of
those that went to a place is what the file there holds.
-/

set_option autoImplicit false

namespace SliceIdl

structure Attempt where
  before : Workspace
  artifact : Artifact

namespace Attempt

def after (t : Attempt) : Workspace :=
  (t.before.writeArtifact t.artifact).1

def failure? (t : Attempt) : Option WriteError :=
  (t.before.writeArtifact t.artifact).2

end Attempt

/-- Attempts that follow each other, from one workspace to another. -/
inductive Attempts : Workspace → List Attempt → Workspace → Prop
  | nil (w : Workspace) : Attempts w [] w
  | cons (t : Attempt) {ts : List Attempt} {w' : Workspace} (rest : Attempts t.after ts w') :
      Attempts t.before (t :: ts) w'

variable {w w' : Workspace}

theorem exists_attempts (w : Workspace) (artifacts : List Artifact) :
    ∃ ts w', Attempts w ts w' ∧ ts.map Attempt.artifact = artifacts := by
  induction artifacts generalizing w with
  | nil => exact ⟨[], w, .nil w, rfl⟩
  | cons a rest ih =>
    obtain ⟨ts, w', hrest, hmap⟩ := ih (Attempt.after ⟨w, a⟩)
    exact ⟨⟨w, a⟩ :: ts, w', .cons ⟨w, a⟩ hrest, congrArg (a :: ·) hmap⟩

theorem Attempts.writeArtifacts_eq {ts : List Attempt} (h : Attempts w ts w') :
    w.writeArtifacts (ts.map Attempt.artifact) = (w', ts.map Attempt.failure?) := by
  induction h with
  | nil w => rfl
  | @cons t ts w' hrest ih =>
    have hfirst : t.before.writeArtifact t.artifact = (t.after, t.failure?) := rfl
    rw [List.map_cons, List.map_cons, Workspace.writeArtifacts, hfirst]
    dsimp only
    rw [ih]

theorem Attempts.split {earlier later : List Attempt} {t : Attempt}
    (h : Attempts w (earlier ++ t :: later) w') :
    Attempts w earlier t.before ∧ Attempts t.after later w' := by
  induction earlier generalizing w with
  | nil =>
    cases h with
    | cons _ hrest => exact ⟨.nil _, hrest⟩
  | cons first earlier ih =>
    cases h with
    | cons _ hrest =>
      obtain ⟨hearlier, hlater⟩ := ih hrest
      exact ⟨.cons first hearlier, hlater⟩

namespace Workspace

theorem writeArtifact_failed {a : Artifact} {e : WriteError}
    (h : (w.writeArtifact a).2 = some e) :
    (w.writeArtifact a).1 = (w.ensureDirectory a.path.parent).1 := by
  rw [writeArtifact] at h ⊢
  split
  · next he => rw [he]
  · next he =>
    rw [he] at h ⊢
    dsimp only at h ⊢
    split
    · next hw =>
      rw [hw] at h
      cases h
    · rfl

theorem ensureUpward_failed {root : Text} {names : List Text} {e : WriteError}
    (h : (w.ensureUpward root names).2 = some e) :
    ∃ upper, upper <+: names.reverse ∧ e.path = PathParts.toText ⟨root, upper⟩ := by
  induction names generalizing w with
  | nil =>
    rw [ensureUpward] at h
    split at h
    · cases h
    · cases h
      exact ⟨[], List.prefix_rfl, rfl⟩
  | cons name above ih =>
    have habove : above.reverse <+: (name :: above).reverse := by
      rw [List.reverse_cons]
      exact List.prefix_append ..
    rw [ensureUpward] at h
    split at h
    · cases h
    · split at h
      · next hup =>
        cases h
        obtain ⟨upper, hu, hpath⟩ := ih (w := w) (by rw [hup])
        exact ⟨upper, hu.trans habove, hpath⟩
      · split at h
        · cases h
        · cases h
          exact ⟨_, List.prefix_rfl, rfl⟩
    · cases h
      exact ⟨_, List.prefix_rfl, rfl⟩

end Workspace

namespace Attempt
open Workspace

variable {t : Attempt} {e : WriteError}

theorem failed_path (h : t.failure? = some e) :
    ∃ upper, upper <+: t.artifact.path.parts ∧
      e.path = PathParts.toText ⟨t.artifact.path.root, upper⟩ := by
  rw [failure?, writeArtifact] at h
  split at h
  · next he =>
    cases h
    obtain ⟨upper, hu, hpath⟩ := ensureUpward_failed (w := t.before) (e := e) (by
      rw [← ensureDirectory, he])
    rw [List.reverse_reverse] at hu
    exact ⟨upper, hu.trans (List.dropLast_prefix _), hpath⟩
  · split at h
    · cases h
    · cases h
      exact ⟨_, List.prefix_rfl, rfl⟩

theorem succeeded (h : t.failure? = none) :
    ∃ q, t.after.leadsTo q t.artifact ∧
      t.after.tree.find? q = some (.file (encodeText t.artifact.text)) ∧
      Grows (· = q) t.before t.after :=
  writeArtifact_eq_none (Prod.ext rfl h)

theorem grows (t : Attempt) :
    Grows (fun q => t.failure? = none ∧ t.after.leadsTo q t.artifact) t.before t.after := by
  cases h : t.failure? with
  | none =>
    obtain ⟨q, hq, -, hgrows⟩ := succeeded h
    exact hgrows.mono fun p hp => ⟨rfl, hp ▸ hq⟩
  | some e =>
    rw [after, writeArtifact_failed h]
    exact ensureUpward_grows ..

end Attempt

namespace Attempts
open Workspace

variable {ts : List Attempt}

/-- Whatever attempts fail, nothing changes but where others succeed. -/
theorem grows (h : Attempts w ts w') :
    Grows (fun q => ∃ t ∈ ts, t.failure? = none ∧ w'.leadsTo q t.artifact) w w' := by
  induction h with
  | nil w => exact .refl w
  | @cons t ts w' hrest ih =>
    refine (t.grows.mono ?_).trans (ih.mono ?_)
    · rintro q ⟨hnone, hq⟩
      exact ⟨t, List.mem_cons_self, hnone, ih.locate hq⟩
    · rintro q ⟨t', ht, hq⟩
      exact ⟨t', List.mem_cons_of_mem _ ht, hq⟩

theorem held {earlier later : List Attempt} {t : Attempt}
    (h : Attempts w (earlier ++ t :: later) w') (ht : t.failure? = none) :
    ∃ q, w'.leadsTo q t.artifact ∧
      ((∀ t' ∈ later, t'.failure? = none → ¬ w'.leadsTo q t'.artifact) →
        w'.tree.find? q = some (.file (encodeText t.artifact.text))) := by
  obtain ⟨-, hlater⟩ := h.split
  obtain ⟨q, hq, hfile, -⟩ := Attempt.succeeded ht
  refine ⟨q, hlater.grows.locate hq, fun hothers => hlater.grows.kept q _ ?_ hfile⟩
  rintro ⟨t', ht', hnone, hq'⟩
  exact hothers t' ht' hnone hq'

end Attempts

namespace Workspace

variable {artifacts : List Artifact}

theorem writeArtifacts_grows (h : ∀ e ∈ (w.writeArtifacts artifacts).2, e = none) :
    (∀ a ∈ artifacts, ∃ q, (w.writeArtifacts artifacts).1.leadsTo q a) ∧
      Grows (fun q => ∃ a ∈ artifacts, (w.writeArtifacts artifacts).1.leadsTo q a) w
        (w.writeArtifacts artifacts).1 := by
  obtain ⟨ts, w', hts, rfl⟩ := exists_attempts w artifacts
  rw [hts.writeArtifacts_eq] at h ⊢
  dsimp only at h ⊢
  rw [List.forall_mem_map] at h
  refine ⟨?found, hts.grows.mono ?written⟩
  case found =>
    rw [List.forall_mem_map]
    intro t ht
    obtain ⟨earlier, later, rfl⟩ := List.append_of_mem ht
    obtain ⟨q, hq, -⟩ := hts.held (h t ht)
    exact ⟨q, hq⟩
  case written =>
    rintro q ⟨t, ht, -, hq⟩
    exact ⟨t.artifact, List.mem_map_of_mem ht, hq⟩

/-- An artifact is in its file unless a later one goes to the same place. -/
theorem writeArtifacts_find? {before after : List Artifact} {a : Artifact} {q : Place}
    (h : ∀ e ∈ (w.writeArtifacts (before ++ a :: after)).2, e = none)
    (hq : (w.writeArtifacts (before ++ a :: after)).1.leadsTo q a)
    (hlater : ∀ b ∈ after, ¬ (w.writeArtifacts (before ++ a :: after)).1.leadsTo q b) :
    (w.writeArtifacts (before ++ a :: after)).1.tree.find? q =
      some (.file (encodeText a.text)) := by
  obtain ⟨ts, w', hts, hsplit⟩ := exists_attempts w (before ++ a :: after)
  rw [← hsplit, hts.writeArtifacts_eq] at h hq hlater ⊢
  dsimp only at h hq hlater ⊢
  obtain ⟨earlier, _, rfl, rfl, hrest⟩ := List.map_eq_append_iff.1 hsplit
  obtain ⟨t, later, rfl, rfl, rfl⟩ := List.map_eq_cons_iff.1 hrest
  rw [List.forall_mem_map] at h hlater
  obtain ⟨q', hq', hfile⟩ := hts.held (h t (by simp))
  obtain rfl : q' = q := Except.ok.inj (hq'.symm.trans hq)
  exact hfile fun t' ht' _ => hlater t' ht'

end Workspace

end SliceIdl
