import SliceIdl.Proofs.Path.Destination
import SliceIdl.Proofs.Workspace.Attempts

/-!
# What writing changes

A directory is made where nothing was, and a file is written where no directory is. So what becomes
of a place is one of three things, and that of many operations is one of the three again. The
directories that are made for an artifact lie on the way along its path, and its file at the end of
it, whatever becomes of the writing.
-/

set_option autoImplicit false

namespace SliceIdl

/-- What can become of what is at a place that directories are made at and files are written to. -/
inductive Change (onWay atEnd : Prop) : Option Entry → Option Entry → Prop
  | same (e : Option Entry) : Change onWay atEnd e e
  | made (h : onWay) : Change onWay atEnd none (some .directory)
  | written {e : Option Entry} (h : atEnd) (hne : e ≠ some .directory) (bytes : ByteArray) :
      Change onWay atEnd e (some (.file bytes))

namespace Change

variable {onWay atEnd onWay' atEnd' : Prop} {e e' e'' : Option Entry}

theorem trans (h : Change onWay atEnd e e') (h' : Change onWay atEnd e' e'') :
    Change onWay atEnd e e'' := by
  cases h with
  | same => exact h'
  | made hw =>
    cases h' with
    | same => exact .made hw
    | written _ hne => exact absurd rfl hne
  | written ht hne bytes =>
    cases h' with
    | same => exact .written ht hne bytes
    | written _ _ bytes' => exact .written ht hne bytes'

theorem mono (h : Change onWay atEnd e e') (hw : onWay → onWay') (ht : atEnd → atEnd') :
    Change onWay' atEnd' e e' := by
  cases h with
  | same => exact .same e
  | made h => exact .made (hw h)
  | written h hne bytes => exact .written (ht h) hne bytes

end Change

namespace Workspace
open FileTree

/-- From a workspace to a later one directories are made at places of one kind and files written to
places of another, and nothing else has changed. -/
structure Changes (onWay atEnd : Place → Prop) (w w' : Workspace) : Prop where
  cwd : w'.cwd = w.cwd
  change : ∀ q, Change (onWay q) (atEnd q) (w.tree.find? q) (w'.tree.find? q)

variable {onWay atEnd onWay' atEnd' : Place → Prop} {w w' w'' : Workspace}

theorem Changes.refl (w : Workspace) : Changes onWay atEnd w w :=
  ⟨rfl, fun _ => .same _⟩

theorem Changes.trans (h : Changes onWay atEnd w w') (h' : Changes onWay atEnd w' w'') :
    Changes onWay atEnd w w'' :=
  ⟨h'.cwd.trans h.cwd, fun q => (h.change q).trans (h'.change q)⟩

theorem Changes.mono (h : Changes onWay atEnd w w') (hw : ∀ q, onWay q → onWay' q)
    (ht : ∀ q, atEnd q → atEnd' q) : Changes onWay' atEnd' w w' :=
  ⟨h.cwd, fun q => (h.change q).mono (hw q) (ht q)⟩

theorem Changes.put {q : Place} {e : Entry} (hq : q ≠ [])
    (h : Change (onWay q) (atEnd q) (w.tree.find? q) (some e)) :
    Changes onWay atEnd w (w.withTree (w.tree.put q e)) := by
  refine ⟨rfl, fun p => ?_⟩
  by_cases hp : p = q
  · subst hp
    rwa [withTree, find?_put_self _ _ hq]
  · rw [withTree, find?_put_of_ne _ _ hp]
    exact .same _

section

variable {q : Place} {bytes : ByteArray}

theorem Changes.directory (h : Changes onWay atEnd w w')
    (hq : w.tree.find? q = some .directory) : w'.tree.find? q = some .directory := by
  have hchange := h.change q
  rw [hq] at hchange
  generalize w'.tree.find? q = e' at hchange ⊢
  cases hchange with
  | same => rfl
  | written _ hne => exact absurd rfl hne

theorem Changes.file (h : Changes onWay atEnd w w') (hq : w.tree.find? q = some (.file bytes)) :
    ∃ bytes', w'.tree.find? q = some (.file bytes') := by
  have hchange := h.change q
  rw [hq] at hchange
  generalize w'.tree.find? q = e' at hchange ⊢
  cases hchange with
  | same => exact ⟨bytes, rfl⟩
  | written _ _ bytes' => exact ⟨bytes', rfl⟩

theorem Changes.made (h : Changes onWay atEnd w w') (hq : w'.tree.find? q = some .directory)
    (hne : w.tree.find? q ≠ some .directory) : onWay q := by
  have hchange := h.change q
  rw [hq] at hchange
  generalize w.tree.find? q = e at hchange hne
  cases hchange with
  | same => exact absurd rfl hne
  | made hway => exact hway

theorem Changes.written (h : Changes onWay atEnd w w')
    (hq : w'.tree.find? q = some (.file bytes)) (hne : w.tree.find? q ≠ some (.file bytes)) :
    atEnd q := by
  have hchange := h.change q
  rw [hq] at hchange
  generalize w.tree.find? q = e at hchange hne
  cases hchange with
  | same => exact absurd rfl hne
  | written hend => exact hend

theorem Changes.file_iff (h : Changes onWay (fun _ => False) w w') :
    w'.tree.find? q = some (.file bytes) ↔ w.tree.find? q = some (.file bytes) := by
  have hchange := h.change q
  generalize w.tree.find? q = e at hchange ⊢
  generalize w'.tree.find? q = e' at hchange ⊢
  cases hchange with
  | same => exact Iff.rfl
  | made => simp
  | written hend => exact hend.elim

theorem Changes.grows (h : Changes onWay atEnd w w') : Grows atEnd w w' where
  cwd := h.cwd
  directory _ hq := h.directory hq
  present q hq := by
    obtain ⟨e, he⟩ := Option.isSome_iff_exists.1 hq
    cases e with
    | directory =>
      rw [h.directory he]
      rfl
    | file bytes =>
      obtain ⟨bytes', hb⟩ := h.file he
      rw [hb]
      rfl
  kept q e hnot hq := by
    have hchange := h.change q
    rw [hq] at hchange
    generalize w'.tree.find? q = e' at hchange ⊢
    cases hchange with
    | same => rfl
    | written hend => exact absurd hend hnot

end

theorem target_place {path name : Text} {p : Place} (h : w.target path = .ok (p, some name))
    (hs : isSpecial name = false) : p ++ [name] = descend (w.origin path) (steps path) := by
  obtain ⟨-, hw, -, hlast⟩ := target_eq_ok h
  rw [isSpecial, Bool.or_eq_false_iff, beq_eq_false_iff_ne, beq_eq_false_iff_ne] at hs
  rw [← List.dropLast_append_getLast? name (Option.mem_def.2 hlast), descend_append,
    ← walk_eq_descend hw, descend, if_neg hs.1, if_neg hs.2, descend]

theorem makeDirectory_changes {path : Text} (h : w.makeDirectory path = .ok w') :
    Changes (· = descend (w.origin path) (steps path)) (fun _ => False) w w' := by
  obtain ⟨p, name, ht, hspecial, hnone, rfl⟩ := makeDirectory_puts h
  refine .put (by simp) ?_
  rw [hnone]
  exact .made (target_place ht hspecial)

theorem keepDirectory_changes {path : Text} (h : w.keepDirectory path = .ok w') :
    Changes (· = descend (w.origin path) (steps path)) (fun _ => False) w w' := by
  rw [keepDirectory] at h
  split at h
  · next hm =>
    cases h
    exact makeDirectory_changes hm
  · split at h
    · cases h
      exact .refl w
    · cases h

theorem writeFile_changes {path : Text} {bytes : ByteArray} (h : w.writeFile path bytes = .ok w') :
    Changes (fun _ => False) (· = descend (w.origin path) (steps path)) w w' := by
  obtain ⟨p, name, ht, hspecial, -, hnot, rfl⟩ := writeFile_puts h
  exact .put (by simp) (.written (target_place ht hspecial) hnot bytes)

def base (w : Workspace) (root : Text) : Place :=
  if root.isEmpty then w.cwd else []

theorem descend_toText {p : PathParts} (h : p.IsNormal) :
    descend (w.origin p.toText) (steps p.toText) = descend (w.base p.root) p.parts := by
  by_cases hne : p.parts = []
  · obtain ⟨root, parts⟩ := p
    subst hne
    rcases h.root with hr | hr | hr <;> subst hr <;> rfl
  · rw [origin, h.isAbsolute_toText hne, h.steps_toText hne, base]
    cases p.root.isEmpty <;> rfl

/-- The places that a path comes by, its end included. -/
def OnWay (w : Workspace) (root : Text) (parts : List Text) (q : Place) : Prop :=
  ∃ upper, upper <+: parts ∧ q = descend (w.base root) upper

theorem ensureUpward_changes {root : Text} {names : List Text}
    (h : PathParts.IsNormal ⟨root, names.reverse⟩) :
    Changes (w.OnWay root names.reverse) (fun _ => False) w (w.ensureUpward root names).1 := by
  -- making the directory of all names, in this workspace or in one of the same current directory
  have hkeep {v v' : Workspace} {names : List Text} (hc : v.cwd = w.cwd)
      (hn : PathParts.IsNormal ⟨root, names.reverse⟩)
      (hk : v.keepDirectory (PathParts.toText ⟨root, names.reverse⟩) = .ok v') :
      Changes (w.OnWay root names.reverse) (fun _ => False) v v' := by
    refine (keepDirectory_changes hk).mono ?_ (fun _ => id)
    rintro q rfl
    refine ⟨_, List.prefix_rfl, ?_⟩
    rw [descend_toText hn, base, base, hc]
  induction names with
  | nil =>
    rw [ensureUpward]
    split
    · next hk => exact hkeep rfl h hk
    · exact .refl w
  | cons name above ih =>
    have habove : above.reverse <+: (name :: above).reverse := by
      rw [List.reverse_cons]
      exact List.prefix_append ..
    have hup : Changes (w.OnWay root (name :: above).reverse) (fun _ => False) w
        (w.ensureUpward root above).1 := by
      refine (ih ⟨h.root, fun s hs => h.parts s (habove.subset hs)⟩).mono ?_ (fun _ => id)
      rintro q ⟨upper, hu, hq⟩
      exact ⟨upper, hu.trans habove, hq⟩
    rw [ensureUpward]
    split
    · next hk => exact hkeep rfl h hk
    · split
      · next he => simpa [he] using hup
      · next he =>
        rw [he] at hup
        split
        · next hk => exact hup.trans (hkeep hup.cwd h hk)
        · exact hup
    · exact .refl w

theorem ensureDirectory_changes {directory : PathParts} (h : directory.IsNormal) :
    Changes (w.OnWay directory.root directory.parts) (fun _ => False) w
      (w.ensureDirectory directory).1 := by
  have hnormal : PathParts.IsNormal ⟨directory.root, directory.parts.reverse.reverse⟩ := by
    rwa [List.reverse_reverse]
  have hensure := ensureUpward_changes (w := w) hnormal
  rwa [List.reverse_reverse] at hensure

theorem parent_isNormal {p : PathParts} (h : p.IsNormal) : p.parent.IsNormal :=
  ⟨h.root, fun s hs => h.parts s (List.dropLast_subset _ hs)⟩

/-- Writing an artifact, be it that it fails, makes directories on the way to its parent and writes
no other file than its own. -/
theorem writeArtifact_changes {a : Artifact} (h : a.path.IsNormal) :
    Changes (w.OnWay a.path.root a.path.parts.dropLast)
      (· = descend (w.base a.path.root) a.path.parts) w (w.writeArtifact a).1 := by
  have hup : Changes (w.OnWay a.path.root a.path.parts.dropLast)
      (· = descend (w.base a.path.root) a.path.parts) w (w.ensureDirectory a.path.parent).1 :=
    (ensureDirectory_changes (parent_isNormal h)).mono (fun _ => id) (fun _ => False.elim)
  rw [writeArtifact]
  split
  · next he => simpa [he] using hup
  · next he =>
    rw [he] at hup
    split
    · next hw =>
      refine hup.trans ((writeFile_changes hw).mono (fun _ => False.elim) ?_)
      rintro q rfl
      rw [descend_toText h, base, base, hup.cwd]
    · exact hup

theorem failed_changes {t : Attempt} {e : WriteError} (hn : t.artifact.path.IsNormal)
    (h : t.failure? = some e) :
    Changes (t.before.OnWay t.artifact.path.root t.artifact.path.parts.dropLast) (fun _ => False)
      t.before t.after := by
  rw [Attempt.after, writeArtifact_failed h]
  exact ensureDirectory_changes (parent_isNormal hn)

theorem writeArtifacts_changes {artifacts : List Artifact}
    (h : ∀ a ∈ artifacts, a.path.IsNormal) :
    Changes (fun q => ∃ a ∈ artifacts, w.OnWay a.path.root a.path.parts.dropLast q)
      (fun q => ∃ a ∈ artifacts, q = descend (w.base a.path.root) a.path.parts) w
      (w.writeArtifacts artifacts).1 := by
  induction artifacts generalizing w with
  | nil => exact .refl w
  | cons a rest ih =>
    have hfirst := writeArtifact_changes (w := w) (h a List.mem_cons_self)
    have hrest := ih (w := (w.writeArtifact a).1) fun b hb => h b (List.mem_cons_of_mem _ hb)
    have hbase (root : Text) : (w.writeArtifact a).1.base root = w.base root := by
      rw [base, base, hfirst.cwd]
    simp only [OnWay, hbase] at hrest
    refine (hfirst.mono (fun q hq => ⟨a, List.mem_cons_self, hq⟩)
      fun q hq => ⟨a, List.mem_cons_self, hq⟩).trans (hrest.mono ?_ ?_)
    · rintro q ⟨b, hb, hq⟩
      exact ⟨b, List.mem_cons_of_mem _ hb, hq⟩
    · rintro q ⟨b, hb, hq⟩
      exact ⟨b, List.mem_cons_of_mem _ hb, hq⟩

end Workspace

end SliceIdl
