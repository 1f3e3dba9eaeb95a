import SliceIdl.Proofs.Path.Characters
import SliceIdl.Proofs.Workspace.Attempts

/-!
# Impossible paths

No path with the character NUL in it can exist. Every operation refuses such a path as what it is,
and refuses no other path as that. So reading a file breaks only over an impossible path, and
writing artifacts meets one only if it is asked to.
-/

set_option autoImplicit false

namespace SliceIdl
open SliceIdl.Path FileTree

/-- No file can have this path. -/
def Path.IsImpossible (p : Text) : Prop :=
  '\x00' ∈ p

instance (p : Text) : Decidable (IsImpossible p) :=
  inferInstanceAs (Decidable ('\x00' ∈ p))

theorem Path.contains_iff_isImpossible {p : Text} : p.contains '\x00' ↔ IsImpossible p :=
  List.contains_iff_mem

def impossible : Fault :=
  .ofValue FileError.nulInPath.message

theorem FileTree.walk_error {t : FileTree} {p : Place} {names : List Text} {e : FileError}
    (h : t.walk p names = .error e) : e = .notFound ∨ e = .notDirectory ∨ e = .nameTooLong := by
  induction names generalizing p with
  | nil => cases h
  | cons s rest ih =>
    rw [walk] at h
    split at h
    · split at h
      · exact ih h
      split at h
      · exact ih h
      split at h
      · cases h
        exact .inr (.inr rfl)
      split at h
      · exact ih h
      · cases h
        exact .inl rfl
    · cases h
      exact .inr (.inl rfl)
    · cases h
      exact .inl rfl

namespace Workspace

variable {w : Workspace} {path : Text} {e : FileError}

theorem checkPath_error (h : checkPath path = .error e) :
    e = .nulInPath ∧ IsImpossible path ∨
      (e = .notFound ∨ e = .nameTooLong) ∧ ¬ IsImpossible path := by
  rw [checkPath] at h
  split at h
  · next hn =>
    cases h
    exact .inl ⟨rfl, contains_iff_isImpossible.1 hn⟩
  next hn =>
  have hpossible : ¬ IsImpossible path := fun himp => hn (contains_iff_isImpossible.2 himp)
  split at h
  · cases h
    exact .inr ⟨.inl rfl, hpossible⟩
  split at h
  · cases h
    exact .inr ⟨.inr rfl, hpossible⟩
  · cases h

theorem checkPath_of_impossible (h : IsImpossible path) : checkPath path = .error .nulInPath := by
  rw [checkPath, if_pos (contains_iff_isImpossible.2 h)]

theorem possible_of_checkPath (h : checkPath path = .ok ()) : ¬ IsImpossible path := by
  intro himp
  rw [checkPath_of_impossible himp] at h
  cases h

theorem locate_error (h : w.locate path = .error e) :
    e = .nulInPath ∧ IsImpossible path ∨
      (e = .notFound ∨ e = .notDirectory ∨ e = .nameTooLong) ∧ ¬ IsImpossible path := by
  rw [locate] at h
  cases hc : checkPath path with
  | error e' =>
    rw [hc] at h
    cases h
    rcases checkPath_error hc with himp | ⟨rfl | rfl, hpossible⟩
    · exact .inl himp
    · exact .inr ⟨.inl rfl, hpossible⟩
    · exact .inr ⟨.inr (.inr rfl), hpossible⟩
  | ok u =>
    rw [hc] at h
    exact .inr ⟨walk_error h, possible_of_checkPath hc⟩

theorem locate_of_impossible (h : IsImpossible path) : w.locate path = .error .nulInPath := by
  rw [locate, checkPath_of_impossible h]
  rfl

theorem possible_of_isFile (h : w.isFile path) : ¬ IsImpossible path := by
  intro himp
  rw [isFile, entry?, locate_of_impossible himp] at h
  cases h

theorem readText_eq_broken {f : Fault} :
    w.readText path = .broken f ↔ IsImpossible path ∧ f = impossible := by
  constructor
  · intro h
    rw [readText, read] at h
    cases hl : w.locate path with
    | error e =>
      rw [hl] at h
      rcases locate_error hl with ⟨rfl, himp⟩ | ⟨rfl | rfl | rfl, -⟩
      · cases h
        exact ⟨himp, rfl⟩
      all_goals cases h
    | ok p =>
      simp only [hl, bind, Except.bind] at h
      cases hf : w.tree.find? p with
      | none => simp [hf, FileError.outcome] at h
      | some entry =>
        cases entry with
        | directory => simp [hf, FileError.outcome] at h
        | file bytes => cases hd : decodeText? bytes <;> simp [hf, hd] at h
  · rintro ⟨himp, rfl⟩
    rw [readText, read, locate_of_impossible himp]
    rfl

theorem possible_of_readText {t : Text} (h : w.readText path = .text t) : ¬ IsImpossible path := by
  intro himp
  rw [readText_eq_broken.2 ⟨himp, rfl⟩] at h
  cases h

theorem target_error (h : w.target path = .error .nulInPath) : IsImpossible path := by
  rw [target] at h
  cases hc : checkPath path with
  | error e' =>
    rw [hc] at h
    cases h
    rcases checkPath_error hc with ⟨-, himp⟩ | ⟨hne | hne, -⟩
    · exact himp
    all_goals cases hne
  | ok u =>
    cases hw : w.tree.walk (w.origin path) (steps path).dropLast with
    | error e' =>
      simp only [hc, hw, bind, Except.bind, Except.error.injEq] at h
      subst h
      rcases walk_error hw with hne | hne | hne <;> cases hne
    | ok p =>
      simp only [hc, hw, bind, Except.bind] at h
      split at h <;> cases h

theorem makeDirectory_error (h : w.makeDirectory path = .error .nulInPath) : IsImpossible path := by
  rw [makeDirectory] at h
  cases ht : w.target path with
  | error e' =>
    rw [ht] at h
    cases h
    exact target_error ht
  | ok t =>
    obtain ⟨p, _ | name⟩ := t
    · simp [ht, bind, Except.bind] at h
    · simp only [ht, bind, Except.bind] at h
      split at h
      · cases h
      split at h
      · cases h
      split at h <;> cases h

theorem keepDirectory_error (h : w.keepDirectory path = .error .nulInPath) : IsImpossible path := by
  rw [keepDirectory] at h
  split at h
  · cases h
  next hm =>
  split at h
  · cases h
  · cases h
    exact makeDirectory_error hm

theorem writeFile_error {bytes : ByteArray} (h : w.writeFile path bytes = .error .nulInPath) :
    IsImpossible path := by
  rw [writeFile] at h
  cases ht : w.target path with
  | error e' =>
    rw [ht] at h
    cases h
    exact target_error ht
  | ok t =>
    obtain ⟨p, _ | name⟩ := t
    · simp [ht, bind, Except.bind] at h
    · simp only [ht, bind, Except.bind] at h
      split at h
      · cases h
      split at h
      · cases h
      split at h <;> cases h

theorem names_of_impossible {p : PathParts} (hr : '\x00' ∉ p.root) (h : IsImpossible p.toText) :
    ∃ s ∈ p.parts, IsImpossible s :=
  PathParts.of_mem_toText (by decide) (by decide) hr h

theorem ensureUpward_impossible {root : Text} (hr : '\x00' ∉ root) {names : List Text}
    {reason : WriteError} (h : (w.ensureUpward root names).2 = some reason)
    (hn : reason.cause = .nulInPath) : ∃ s ∈ names, IsImpossible s := by
  have own : ∀ {w : Workspace} {names : List Text},
      w.keepDirectory (PathParts.toText ⟨root, names.reverse⟩) = .error .nulInPath →
      ∃ s ∈ names, IsImpossible s := by
    intro w names hk
    obtain ⟨s, hs, himp⟩ := names_of_impossible hr (keepDirectory_error hk)
    exact ⟨s, List.mem_reverse.1 hs, himp⟩
  induction names generalizing w with
  | nil =>
    rw [ensureUpward] at h
    split at h
    · cases h
    next hk =>
    cases h
    cases hn
    exact @own _ [] hk
  | cons name above ih =>
    rw [ensureUpward] at h
    split at h
    · cases h
    · split at h
      · next hup =>
        cases h
        obtain ⟨s, hs, himp⟩ := ih (w := w) (by rw [hup])
        exact ⟨s, List.mem_cons_of_mem _ hs, himp⟩
      · split at h
        · cases h
        next hk =>
        cases h
        cases hn
        exact own hk
    · next hk =>
      cases h
      cases hn
      exact own hk

theorem ensureDirectory_impossible {directory : PathParts} (hr : '\x00' ∉ directory.root)
    {reason : WriteError} (h : (w.ensureDirectory directory).2 = some reason)
    (hn : reason.cause = .nulInPath) : ∃ s ∈ directory.parts, IsImpossible s := by
  obtain ⟨s, hs, himp⟩ := ensureUpward_impossible hr h hn
  exact ⟨s, List.mem_reverse.1 hs, himp⟩

theorem writeArtifact_impossible {a : Artifact} (hr : '\x00' ∉ a.path.root) {reason : WriteError}
    (h : (w.writeArtifact a).2 = some reason) (hn : reason.cause = .nulInPath) :
    ∃ s ∈ a.path.parts, IsImpossible s := by
  rw [writeArtifact] at h
  split at h
  · next he =>
    cases h
    have hr : '\x00' ∉ a.path.parent.root := hr
    obtain ⟨s, hs, himp⟩ := ensureDirectory_impossible hr (by rw [he]) hn
    exact ⟨s, List.dropLast_subset _ hs, himp⟩
  · split at h
    · cases h
    next hw =>
    cases h
    cases hn
    exact names_of_impossible hr (writeFile_error hw)

theorem writeArtifacts_impossible {artifacts : List Artifact}
    (hr : ∀ a ∈ artifacts, '\x00' ∉ a.path.root) {reason : WriteError}
    (h : some reason ∈ (w.writeArtifacts artifacts).2) (hn : reason.cause = .nulInPath) :
    ∃ a ∈ artifacts, ∃ s ∈ a.path.parts, IsImpossible s := by
  induction artifacts generalizing w with
  | nil => cases h
  | cons a artifacts ih =>
    rw [writeArtifacts] at h
    rcases List.mem_cons.1 h with hfirst | hrest
    · exact ⟨a, List.mem_cons_self,
        writeArtifact_impossible (hr a List.mem_cons_self) hfirst.symm hn⟩
    · obtain ⟨b, hb, himp⟩ := ih (fun b hb => hr b (List.mem_cons_of_mem _ hb)) hrest
      exact ⟨b, List.mem_cons_of_mem _ hb, himp⟩

theorem keepDirectory_of_impossible {path : Text} (h : IsImpossible path) :
    w.keepDirectory path = .error .nulInPath := by
  have hmake : w.makeDirectory path = .error .nulInPath := by
    rw [makeDirectory, target, checkPath_of_impossible h]
    rfl
  have hnone : w.isDirectory path = false := by
    rw [isDirectory, entry?, locate_of_impossible h]
  rw [keepDirectory, hmake]
  simp [hnone]

theorem ensureUpward_of_impossible {root : Text} {names : List Text}
    (h : IsImpossible (PathParts.toText ⟨root, names.reverse⟩)) :
    w.ensureUpward root names =
      (w, some ⟨PathParts.toText ⟨root, names.reverse⟩, .nulInPath⟩) := by
  have hkeep := keepDirectory_of_impossible (w := w) h
  cases names with
  | nil =>
    rw [List.reverse_nil] at hkeep ⊢
    rw [ensureUpward, hkeep]
  | cons name above => rw [ensureUpward, hkeep]

theorem writeArtifact_of_impossible {a : Artifact} (h : IsImpossible a.path.parent.toText) :
    w.writeArtifact a = (w, some ⟨a.path.parent.toText, .nulInPath⟩) := by
  have hparent : IsImpossible
      (PathParts.toText ⟨a.path.parent.root, a.path.parent.parts.reverse.reverse⟩) := by
    rwa [List.reverse_reverse]
  have hensure := ensureUpward_of_impossible (w := w) hparent
  rw [List.reverse_reverse] at hensure
  rw [writeArtifact, ensureDirectory, hensure]

end Workspace

theorem Attempts.of_impossible {w w' : Workspace} {ts : List Attempt} (h : Attempts w ts w')
    (himp : ∀ t ∈ ts, IsImpossible t.artifact.path.parent.toText) :
    w' = w ∧ ∀ t ∈ ts, ∃ e, t.failure? = some e ∧ e.cause = .nulInPath := by
  induction h with
  | nil w => exact ⟨rfl, fun t ht => absurd ht List.not_mem_nil⟩
  | @cons t ts w' hrest ih =>
    have hwrite := Workspace.writeArtifact_of_impossible (w := t.before) (himp t List.mem_cons_self)
    obtain ⟨hsame, hall⟩ := ih fun t' ht => himp t' (List.mem_cons_of_mem _ ht)
    have hafter : t.after = t.before := by rw [Attempt.after, hwrite]
    refine ⟨hsame.trans hafter, fun t' ht => ?_⟩
    rcases List.mem_cons.1 ht with rfl | ht
    · exact ⟨_, by rw [Attempt.failure?, hwrite], rfl⟩
    · exact hall t' ht

end SliceIdl
