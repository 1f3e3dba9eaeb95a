import SliceIdl.Proofs.Workspace.Impossible
import SliceIdl.Proofs.Workspace.Changes

/-!
# Writing what has been written

After artifacts have been written their directories are there and their paths lead to files. So they
can be written again. No directory is made then and no file comes to be, and as the last artifact
that goes to a file is the same one as before, all files are as they were.
-/

set_option autoImplicit false

namespace SliceIdl
open SliceIdl.Path FileTree

namespace FileTree

theorem byteSize_append (s t : Text) : byteSize (s ++ t) = byteSize s + byteSize t := by
  simp [byteSize, String.ofList_append]

end FileTree

namespace Workspace

variable {w w' : Workspace} {path : Text} {q : Place}

theorem checkPath_eq_ok : checkPath path = .ok () ↔
    ¬ IsImpossible path ∧ path ≠ [] ∧ byteSize path ≤ maxPathSize := by
  rw [checkPath, ← contains_iff_isImpossible, ← Nat.not_lt]
  by_cases hn : path.contains '\x00'
  · rw [if_pos hn]
    exact ⟨fun h => (by cases h), fun h => absurd hn h.1⟩
  rw [if_neg hn]
  by_cases hempty : path.isEmpty
  · rw [if_pos hempty]
    exact ⟨fun h => (by cases h), fun h => absurd (List.isEmpty_iff.1 hempty) h.2.1⟩
  rw [if_neg hempty]
  by_cases hsize : maxPathSize < byteSize path
  · rw [if_pos hsize]
    exact ⟨fun h => (by cases h), fun h => absurd hsize h.2.2⟩
  · rw [if_neg hsize]
    exact ⟨fun _ => ⟨hn, fun h => hempty (List.isEmpty_iff.2 h), hsize⟩, fun _ => rfl⟩

theorem checkPath_of_prefix (h : checkPath path = .ok ()) {upper : Text} (hp : upper <+: path)
    (hne : upper ≠ []) : checkPath upper = .ok () := by
  obtain ⟨hpossible, -, hsize⟩ := checkPath_eq_ok.1 h
  obtain ⟨rest, rfl⟩ := hp
  rw [byteSize_append] at hsize
  exact checkPath_eq_ok.2 ⟨fun himp => hpossible (List.mem_append_left _ himp), hne, by omega⟩

theorem isDirectory_iff :
    w.isDirectory path ↔ ∃ q, w.locate path = .ok q ∧ w.tree.find? q = some .directory := by
  rw [isDirectory, entry?]
  cases w.locate path with
  | error e => simp
  | ok q =>
    simp only [Except.ok.injEq, exists_eq_left']
    cases w.tree.find? q with
    | none => simp
    | some e => cases e <;> simp

section

variable {p : PathParts}

theorem walk_of_locate_toText (h : p.IsNormal) (hne : p.parts ≠ [])
    (hl : w.locate p.toText = .ok q) : w.tree.walk (w.base p.root) p.parts = .ok q := by
  obtain ⟨-, hw⟩ := locate_eq_ok.1 hl
  rw [origin, h.isAbsolute_toText hne, h.steps_toText hne] at hw
  rw [base]
  cases hr : p.root.isEmpty <;> simpa [hr] using hw

theorem locate_toText_of_walk (h : p.IsNormal) (hc : checkPath p.toText = .ok ())
    (hw : w.tree.walk (w.base p.root) p.parts = .ok q)
    (hd : w.tree.find? q = some .directory) : w.locate p.toText = .ok q := by
  refine locate_eq_ok.2 ⟨hc, ?_⟩
  by_cases hne : p.parts = []
  · obtain ⟨root, parts⟩ := p
    subst hne
    cases hw
    have hstay : w.tree.walk (w.base root) [currentSegment] = .ok (w.base root) := by
      simp [FileTree.walk, hd]
    rcases h.root with hr | hr | hr <;> subst hr <;> exact hstay
  · rw [origin, h.isAbsolute_toText hne, h.steps_toText hne]
    rw [base] at hw
    cases hr : p.root.isEmpty <;> simpa [hr] using hw

theorem checkPath_parent (h : p.IsNormal) (hne : p.parts ≠ [])
    (hc : checkPath p.toText = .ok ()) : checkPath p.parent.toText = .ok () := by
  by_cases hupper : p.parts.dropLast = []
  · rw [PathParts.parent, hupper]
    rcases h.root with hr | hr | hr <;> rw [hr] <;> decide
  · have hparent : p.parent.IsNormal :=
      ⟨h.root, fun s hs => h.parts s (List.dropLast_subset _ hs)⟩
    obtain ⟨htext, -⟩ := h.toText_eq hne
    obtain ⟨htext', hj⟩ := hparent.toText_eq hupper
    have hprefix : p.parent.toText <+: p.toText := by
      rw [htext, htext', ← List.dropLast_append_getLast hne, joined_append hupper (by simp)]
      exact ⟨'/' :: Text.joined ['/'] [p.parts.getLast hne], List.append_assoc ..⟩
    refine checkPath_of_prefix hc hprefix ?_
    rw [htext']
    exact List.append_ne_nil_of_right_ne_nil _ hj

theorem isDirectory_parent (h : p.IsNormal) (hne : p.parts ≠ [])
    (hl : w.locate p.toText = .ok q) : w.isDirectory p.parent.toText := by
  have hw := walk_of_locate_toText h hne hl
  rw [← List.dropLast_append_getLast hne, walk_append] at hw
  cases hu : w.tree.walk (w.base p.root) p.parts.dropLast with
  | error e =>
    rw [hu] at hw
    cases hw
  | ok r =>
    rw [hu] at hw
    have hd : w.tree.find? r = some .directory := (walk_cons hw).1
    have hparent : p.parent.IsNormal :=
      ⟨h.root, fun s hs => h.parts s (List.dropLast_subset _ hs)⟩
    have hc := checkPath_parent h hne (locate_eq_ok.1 hl).1
    exact isDirectory_iff.2 ⟨r, locate_toText_of_walk hparent hc hu hd, hd⟩

end

theorem keepDirectory_of_isDirectory (h : w.isDirectory path) : w.keepDirectory path = .ok w := by
  rw [keepDirectory]
  cases hm : w.makeDirectory path with
  | error e => simp [h]
  | ok w' =>
    obtain ⟨p, name, ht, hspecial, hnone, -⟩ := makeDirectory_puts hm
    obtain ⟨q, hl, hd⟩ := isDirectory_iff.1 h
    have hq := walk_eq_descend (locate_eq_ok.1 hl).2
    rw [← target_place ht hspecial] at hq
    rw [hq, hnone] at hd
    cases hd

theorem ensureDirectory_of_isDirectory {p : PathParts} (h : w.isDirectory p.toText) :
    w.ensureDirectory p = (w, none) := by
  have hk := keepDirectory_of_isDirectory h
  have hp : p.toText = PathParts.toText ⟨p.root, p.parts.reverse.reverse⟩ := by
    rw [List.reverse_reverse]
  rw [hp] at hk
  rw [ensureDirectory]
  generalize p.parts.reverse = names at hk
  cases names with
  | nil =>
    rw [ensureUpward]
    dsimp only [List.reverse_nil] at hk ⊢
    rw [hk]
  | cons name above =>
    rw [ensureUpward]
    simp only [hk]

theorem writeFile_of_file {bytes old : ByteArray} {name : Text} (hl : w.locate path = .ok q)
    (hf : w.tree.find? q = some (.file old)) (hlast : (steps path).getLast? = some name)
    (hspecial : isSpecial name = false) :
    w.writeFile path bytes = .ok (w.withTree (w.tree.put q (.file bytes))) := by
  obtain ⟨hc, hw⟩ := locate_eq_ok.1 hl
  have hsteps := List.dropLast_append_getLast? name (Option.mem_def.2 hlast)
  rw [← hsteps, walk_append] at hw
  cases hr : w.tree.walk (w.origin path) (steps path).dropLast with
  | error e =>
    rw [hr] at hw
    cases hw
  | ok r =>
    rw [hr] at hw
    rw [isSpecial, Bool.or_eq_false_iff, beq_eq_false_iff_ne, beq_eq_false_iff_ne] at hspecial
    obtain ⟨hd, ⟨hdot, -⟩ | ⟨hparent, -⟩ | ⟨-, -, hsize, -, hend⟩⟩ := walk_cons hw
    · exact absurd hdot hspecial.1
    · exact absurd hparent hspecial.2
    cases hend
    have ht : w.target path = .ok (r, some name) := by
      simp only [target, hc, hr, hd, hlast, bind, Except.bind]
    rw [writeFile, ht]
    simp [isSpecial, hspecial, hsize, hf, bind, Except.bind]

end Workspace

def Artifact.IsPlaced (a : Artifact) : Prop :=
  ∃ dir name, dir.IsNormal ∧ a.path = LogicalName.artifactPath dir name

namespace Workspace

variable {w w' : Workspace} {q : Place}

/-- Places of files are the only ones that change. -/
def Refills (w w' : Workspace) : Prop :=
  Changes (fun _ => False) (fun q => ∃ bytes, w.tree.find? q = some (.file bytes)) w w'

theorem Refills.file_iff (h : Refills w w') :
    (∃ bytes, w'.tree.find? q = some (.file bytes)) ↔
      ∃ bytes, w.tree.find? q = some (.file bytes) := by
  have hchange := h.change q
  generalize w.tree.find? q = e at hchange ⊢
  generalize w'.tree.find? q = e' at hchange ⊢
  cases hchange with
  | same => exact Iff.rfl
  | made h => exact h.elim
  | written h _ bytes => exact ⟨fun _ => h, fun _ => ⟨bytes, rfl⟩⟩

theorem Refills.find?_eq_none (h : Refills w w') (hq : w.tree.find? q = none) :
    w'.tree.find? q = none := by
  have hchange := h.change q
  rw [hq] at hchange
  generalize w'.tree.find? q = e' at hchange ⊢
  cases hchange with
  | same => rfl
  | made hway => exact hway.elim
  | written hfile =>
    obtain ⟨bytes, hbytes⟩ := hfile
    cases hbytes

theorem Refills.trans {w'' : Workspace} (h : Refills w w') (h' : Refills w' w'') :
    Refills w w'' :=
  Changes.trans h (Changes.mono h' (fun _ => id) fun _ => h.file_iff.1)

theorem writeArtifact_of_file {a : Artifact} (ha : a.IsPlaced) (hl : w.leadsTo q a)
    {old : ByteArray} (hf : w.tree.find? q = some (.file old)) :
    w.writeArtifact a = (w.withTree (w.tree.put q (.file (encodeText a.text))), none) := by
  obtain ⟨dir, name, hd, hpath⟩ := ha
  have hnormal : a.path.IsNormal := hpath ▸ LogicalName.artifactPath_isNormal hd name
  have hparts : a.path.parts = dir.parts ++ LogicalName.folders name ++
      [LogicalName.artifactFile name] := hpath ▸ LogicalName.artifactPath_parts dir name
  have hne : a.path.parts ≠ [] := by simp [hparts]
  have hlast : (steps a.path.toText).getLast? = some (LogicalName.artifactFile name) := by
    rw [hnormal.steps_toText hne, hparts, List.getLast?_concat]
  have hspecial : isSpecial (LogicalName.artifactFile name) = false := by
    simp [isSpecial, (LogicalName.artifactFile_down name).2]
  rw [writeArtifact, ensureDirectory_of_isDirectory (isDirectory_parent hnormal hne hl)]
  simp only [writeFile_of_file hl hf hlast hspecial]

theorem writeArtifacts_of_files {artifacts : List Artifact} (ha : ∀ a ∈ artifacts, a.IsPlaced)
    (hf : ∀ a ∈ artifacts, ∃ q, w.leadsTo q a ∧ ∃ bytes, w.tree.find? q = some (.file bytes)) :
    (∀ e ∈ (w.writeArtifacts artifacts).2, e = none) ∧
      Refills w (w.writeArtifacts artifacts).1 := by
  induction artifacts generalizing w with
  | nil => exact ⟨fun e he => absurd he List.not_mem_nil, Changes.refl w⟩
  | cons a rest ih =>
    obtain ⟨q, hl, old, hq⟩ := hf a List.mem_cons_self
    have hwrite := writeArtifact_of_file (ha a List.mem_cons_self) hl hq
    obtain ⟨r, -, -, hgrows⟩ := writeArtifact_eq_none hwrite
    have hne : q ≠ [] := by
      rintro rfl
      cases hq
    have hfirst : Refills w (w.withTree (w.tree.put q (.file (encodeText a.text)))) :=
      .put hne (.written ⟨old, hq⟩ (by simp [hq]) _)
    obtain ⟨hnone, hrest⟩ := ih (w := w.withTree (w.tree.put q (.file (encodeText a.text))))
      (fun b hb => ha b (List.mem_cons_of_mem _ hb)) fun b hb => by
        obtain ⟨r, hlb, hr⟩ := hf b (List.mem_cons_of_mem _ hb)
        exact ⟨r, hgrows.locate hlb, hfirst.file_iff.2 hr⟩
    rw [writeArtifacts, hwrite]
    refine ⟨fun e he => ?_, hfirst.trans hrest⟩
    rcases List.mem_cons.1 he with rfl | he
    · rfl
    · exact hnone e he

theorem writeArtifacts_last {artifacts : List Artifact}
    (h : ∀ e ∈ (w.writeArtifacts artifacts).2, e = none) {a : Artifact} (ha : a ∈ artifacts)
    (hl : (w.writeArtifacts artifacts).1.leadsTo q a) :
    ∃ before last after, artifacts = before ++ last :: after ∧
      (w.writeArtifacts artifacts).1.leadsTo q last ∧
      (∀ b ∈ after, ¬ (w.writeArtifacts artifacts).1.leadsTo q b) ∧
      (w.writeArtifacts artifacts).1.tree.find? q = some (.file (encodeText last.text)) := by
  obtain ⟨before, last, after, hsplit, hlast, hafter⟩ := exists_last ha
    (p := (w.writeArtifacts artifacts).1.leadsTo q) hl
  refine ⟨before, last, after, hsplit, hlast, hafter, ?_⟩
  rw [hsplit] at h hlast hafter ⊢
  exact writeArtifacts_find? h hlast hafter

theorem Grows.leadsTo_iff {written : Place → Prop} (h : Grows written w w') {a : Artifact}
    (ha : ∃ r, w.leadsTo r a) : w'.leadsTo q a ↔ w.leadsTo q a := by
  obtain ⟨r, hr⟩ := ha
  have hr' : w'.leadsTo r a := h.locate hr
  constructor
  · intro hq
    rwa [Except.ok.inj (hq.symm.trans hr')]
  · exact fun hq => h.locate hq

/-- Artifacts that have been written can be written again, and that changes nothing. -/
theorem writeArtifacts_again {artifacts : List Artifact} (ha : ∀ a ∈ artifacts, a.IsPlaced)
    (h : ∀ e ∈ (w.writeArtifacts artifacts).2, e = none) (hw : w' = (w.writeArtifacts artifacts).1) :
    (∀ e ∈ (w'.writeArtifacts artifacts).2, e = none) ∧
      (w'.writeArtifacts artifacts).1.cwd = w'.cwd ∧
      ∀ q, (w'.writeArtifacts artifacts).1.tree.find? q = w'.tree.find? q := by
  subst hw
  generalize hw : (w.writeArtifacts artifacts).1 = w' at *
  obtain ⟨hfound, -⟩ := writeArtifacts_grows h
  rw [hw] at hfound
  have hfiles : ∀ a ∈ artifacts, ∃ q, w'.leadsTo q a ∧
      ∃ bytes, w'.tree.find? q = some (.file bytes) := by
    intro a hmem
    obtain ⟨q, hq⟩ := hfound a hmem
    obtain ⟨-, last, -, -, -, -, hfile⟩ := writeArtifacts_last h hmem (hw ▸ hq)
    exact ⟨q, hq, _, hw ▸ hfile⟩
  obtain ⟨hnone, hrefills⟩ := writeArtifacts_of_files ha hfiles
  obtain ⟨-, hgrows⟩ := writeArtifacts_grows hnone
  have hleads : ∀ a ∈ artifacts, ∀ q, (w'.writeArtifacts artifacts).1.leadsTo q a ↔
      w'.leadsTo q a := fun a hmem q => hgrows.leadsTo_iff (hfound a hmem)
  refine ⟨hnone, hgrows.cwd, fun q => ?_⟩
  by_cases hq : ∃ a ∈ artifacts, w'.leadsTo q a
  · obtain ⟨a, hmem, hlead⟩ := hq
    obtain ⟨before, last, after, hsplit, hlast, hafter, hfile⟩ :=
      writeArtifacts_last h hmem (hw ▸ hlead)
    rw [hw] at hlast hafter hfile
    have hlast' := (hleads last (by simp [hsplit]) q).2 hlast
    have hafter' : ∀ b ∈ after, ¬ (w'.writeArtifacts artifacts).1.leadsTo q b :=
      fun b hb hlead => hafter b hb ((hleads b (by simp [hsplit, hb]) q).1 hlead)
    rw [hfile]
    rw [hsplit] at hnone hlast' hafter' ⊢
    exact writeArtifacts_find? hnone hlast' hafter'
  · have hnot : ¬ ∃ a ∈ artifacts, (w'.writeArtifacts artifacts).1.leadsTo q a := by
      rintro ⟨a, hmem, hlead⟩
      exact hq ⟨a, hmem, (hleads a hmem q).1 hlead⟩
    cases hbefore : w'.tree.find? q with
    | some e => exact hgrows.kept q e hnot hbefore
    | none => exact hrefills.find?_eq_none hbefore

end Workspace

end SliceIdl
