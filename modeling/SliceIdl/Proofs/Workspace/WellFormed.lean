import Mathlib.Data.List.Induction
import Mathlib.Data.List.Nodup
import Mathlib.Data.List.Perm.Subperm
import SliceIdl.Proofs.Workspace.Changes

/-!
# Workspaces in which everything lies in a directory

In the tree of a file system everything lies in a directory and has a name that a path can spell.
Making directories and writing files keep it so, whatever they fail over. In such a tree a path
without `..` leads to a place if something is there and no file is in the way.
-/

set_option autoImplicit false

namespace SliceIdl
open SliceIdl.Path

namespace FileTree

def IsName (s : Text) : Prop :=
  s ≠ [] ∧ '/' ∉ s ∧ s ≠ currentSegment ∧ s ≠ parentSegment

instance : DecidablePred IsName :=
  fun _ => inferInstanceAs (Decidable (_ ∧ _ ∧ _ ∧ _))

/-- Everything that there is has a name and lies in a directory. -/
def WellFormed (t : FileTree) : Prop :=
  ∀ x ∈ t.entries, x.1 ≠ [] ∧ t.find? x.1.dropLast = some .directory ∧
    ∀ name ∈ x.1.getLast?, IsName name

instance (t : FileTree) : Decidable t.WellFormed :=
  inferInstanceAs (Decidable (∀ x ∈ t.entries, _ ∧ _ ∧ ∀ name ∈ x.1.getLast?, IsName name))

variable {t : FileTree} {p q : Place} {name : Text}

theorem find?_isSome_iff (hp : p ≠ []) : (t.find? p).isSome ↔ ∃ e, (p, e) ∈ t.entries := by
  rw [find?, if_neg (by simpa using hp)]
  constructor
  · intro h
    obtain ⟨e, he⟩ := Option.isSome_iff_exists.1 h
    obtain ⟨before, after, hsplit, -⟩ := List.lookup_eq_some_iff.1 he
    exact ⟨e, by simp [hsplit]⟩
  · rintro ⟨e, he⟩
    rw [Option.isSome_iff_ne_none, Ne, List.lookup_eq_none_iff]
    intro hnone
    simpa using hnone _ he

theorem mem_children : name ∈ t.children p ↔ (t.find? (p ++ [name])).isSome := by
  rw [find?_isSome_iff (by simp), children, List.mem_filterMap]
  constructor
  · rintro ⟨⟨place, e⟩, hx, hname⟩
    dsimp only at hname
    split at hname
    · next last hlast =>
      split at hname
      · next hp =>
        cases hname
        subst hp
        rw [List.dropLast_append_getLast? name (Option.mem_def.2 hlast)]
        exact ⟨e, hx⟩
      · cases hname
    · cases hname
  · rintro ⟨e, he⟩
    exact ⟨_, he, by simp⟩

theorem WellFormed.parent (h : t.WellFormed) (hs : (t.find? (p ++ [name])).isSome) :
    t.find? p = some .directory ∧ IsName name := by
  obtain ⟨e, he⟩ := (find?_isSome_iff (by simp)).1 hs
  obtain ⟨-, hd, hn⟩ := h _ he
  rw [List.dropLast_concat] at hd
  exact ⟨hd, hn name (by simp)⟩

theorem WellFormed.above (h : t.WellFormed) {names : List Text} (hne : names ≠ [])
    (hs : (t.find? (p ++ names)).isSome) : t.find? p = some .directory := by
  induction names using List.reverseRecOn with
  | nil => exact absurd rfl hne
  | append_singleton names name ih =>
    rw [← List.append_assoc] at hs
    obtain ⟨hd, -⟩ := h.parent hs
    by_cases hn : names = []
    · rwa [hn, List.append_nil] at hd
    · exact ih hn (by rw [hd]; rfl)

theorem WellFormed.isName (h : t.WellFormed) (hs : (t.find? q).isSome) : ∀ s ∈ q, IsName s := by
  induction q using List.reverseRecOn with
  | nil => exact fun s hs => absurd hs List.not_mem_nil
  | append_singleton q name ih =>
    obtain ⟨hd, hn⟩ := h.parent hs
    intro s hmem
    rcases List.mem_append.1 hmem with hq | hl
    · exact ih (by rw [hd]; rfl) s hq
    · rwa [List.mem_singleton.1 hl]

theorem WellFormed.length_le (h : t.WellFormed) (hs : (t.find? q).isSome) :
    q.length ≤ t.entries.length := by
  have hnodup : ((List.range q.length).map fun n => q.take (n + 1)).Nodup := by
    apply List.Nodup.map_on _ List.nodup_range
    intro n hn m hm he
    have hlen := congrArg List.length he
    rw [List.mem_range] at hn hm
    simp only [List.length_take] at hlen
    omega
  have hsub : ((List.range q.length).map fun n => q.take (n + 1)) ⊆ t.entries.map Prod.fst := by
    intro r hr
    obtain ⟨n, hn, rfl⟩ := List.mem_map.1 hr
    rw [List.mem_range] at hn
    have hne : q.take (n + 1) ≠ [] := by
      intro hnil
      have := congrArg List.length hnil
      simp only [List.length_take, List.length_nil] at this
      omega
    have htaken : (t.find? (q.take (n + 1))).isSome := by
      rw [← List.take_append_drop (n + 1) q] at hs
      by_cases hd : q.drop (n + 1) = []
      · rwa [hd, List.append_nil] at hs
      · rw [h.above hd hs]
        rfl
    obtain ⟨e, he⟩ := (find?_isSome_iff hne).1 htaken
    exact List.mem_map.2 ⟨_, he, rfl⟩
  have hle := (List.subperm_of_subset hnodup hsub).length_le
  simpa using hle

theorem descend_of_noParent {names : List Text} (h : parentSegment ∉ names) (p : Place) :
    descend p names = p ++ names.filter (· != currentSegment) := by
  induction names generalizing p with
  | nil => simp [descend]
  | cons s rest ih =>
    rw [List.mem_cons, not_or] at h
    rw [descend, if_neg (Ne.symm h.1)]
    split
    · next hs => simp [hs, ih h.2]
    · next hs => simp [hs, ih h.2]

/-- Where names without `..` lead in one tree they lead in any other one that has something there,
unless a file of it is in the way. -/
theorem WellFormed.walk (h : t.WellFormed) {t' : FileTree}
    (hdirectory : ∀ r, t'.find? r = some .directory → (t.find? r).isSome →
      t.find? r = some .directory)
    {names : List Text} (hn : parentSegment ∉ names) (hs : (t.find? q).isSome)
    (hw : t'.walk p names = .ok q) : t.walk p names = .ok q := by
  induction names generalizing p with
  | nil => exact hw
  | cons s rest ih =>
    rw [List.mem_cons, not_or] at hn
    obtain ⟨hd, hrest⟩ := walk_cons hw
    have hq := walk_eq_descend hw
    rw [descend_of_noParent (by simp [hn])] at hq
    have hp : t.find? p = some .directory := by
      by_cases hnames : (s :: rest).filter (· != currentSegment) = []
      · rw [hnames, List.append_nil] at hq
        exact hdirectory p hd (hq ▸ hs)
      · exact h.above hnames (hq ▸ hs)
    rcases hrest with ⟨rfl, hw'⟩ | ⟨rfl, -⟩ | ⟨hc, hparent, hsize, -, hw'⟩
    · rw [FileTree.walk, hp]
      exact ih hn.2 hw'
    · exact absurd rfl hn.1
    · have hnext : (t.find? (p ++ [s])).isSome := by
        have hq' := walk_eq_descend hw'
        rw [descend_of_noParent hn.2] at hq'
        by_cases hnames : rest.filter (· != currentSegment) = []
        · rw [hnames, List.append_nil] at hq'
          exact hq' ▸ hs
        · rw [h.above hnames (hq' ▸ hs)]
          rfl
      rw [FileTree.walk, hp]
      simp only [hc, hparent, hsize, hnext, if_false, if_true]
      exact ih hn.2 hw'

theorem WellFormed.put (h : t.WellFormed) (hd : t.find? p = some .directory) (hn : IsName name)
    {e : Entry} (he : e = .directory ∨ t.find? (p ++ [name]) ≠ some .directory) :
    (t.put (p ++ [name]) e).WellFormed := by
  have hnew : p ++ [name] ≠ [] := by simp
  have hkept : ∀ r, t.find? r = some .directory →
      (t.put (p ++ [name]) e).find? r = some .directory := by
    intro r hr
    by_cases hrp : r = p ++ [name]
    · subst hrp
      rw [find?_put_self t e hnew, he.resolve_right fun hne => hne hr]
    · rw [find?_put_of_ne t e hrp, hr]
  intro x hx
  rw [FileTree.put, List.mem_cons] at hx
  rcases hx with rfl | hx
  · refine ⟨hnew, hkept _ ?_, ?_⟩
    · rwa [List.dropLast_concat]
    · intro last hl
      rw [List.getLast?_concat, Option.mem_some_iff] at hl
      exact hl ▸ hn
  · obtain ⟨hne, hdir, hname⟩ := h x (List.mem_of_mem_filter hx)
    exact ⟨hne, hkept _ hdir, hname⟩

theorem isName_of_mem_steps {path s : Text} (hs : s ∈ steps path)
    (hspecial : Workspace.isSpecial s = false) : IsName s := by
  rw [Workspace.isSpecial, Bool.or_eq_false_iff, beq_eq_false_iff_ne, beq_eq_false_iff_ne]
    at hspecial
  rcases List.mem_append.1 hs with hseg | hdot
  · obtain ⟨hm, hne⟩ := List.mem_filter.1 hseg
    exact ⟨by simpa using hne, slashFree_of_mem_segments hm, hspecial⟩
  · split at hdot
    · exact absurd (List.mem_singleton.1 hdot) hspecial.1
    · cases hdot

end FileTree

namespace Workspace
open FileTree

/-- A workspace as it can be found: its tree is well-formed, and it is seen from a directory. -/
structure WellFormed (w : Workspace) : Prop where
  tree : w.tree.WellFormed
  cwd : w.tree.find? w.cwd = some .directory

instance (w : Workspace) : Decidable w.WellFormed :=
  decidable_of_iff (w.tree.WellFormed ∧ w.tree.find? w.cwd = some .directory)
    ⟨fun h => ⟨h.1, h.2⟩, fun h => ⟨h.tree, h.cwd⟩⟩

variable {w w' : Workspace}

theorem WellFormed.makeDirectory (h : w.WellFormed) {path : Text}
    (hm : w.makeDirectory path = .ok w') : w'.WellFormed := by
  have hgrows : Grows (fun _ => False) w w' := makeDirectory_grows hm
  obtain ⟨p, name, ht, hspecial, -, hw⟩ := makeDirectory_puts hm
  obtain ⟨-, -, hd, hlast⟩ := target_eq_ok ht
  have hname := isName_of_mem_steps (List.mem_of_getLast? hlast) hspecial
  exact ⟨hw ▸ h.tree.put hd hname (.inl rfl), hgrows.cwd ▸ hgrows.directory _ h.cwd⟩

theorem WellFormed.writeFile (h : w.WellFormed) {path : Text} {bytes : ByteArray}
    (hf : w.writeFile path bytes = .ok w') : w'.WellFormed := by
  obtain ⟨q, -, -, hgrows⟩ := writeFile_eq_ok hf
  obtain ⟨p, name, ht, hspecial, -, hnot, hw⟩ := writeFile_puts hf
  obtain ⟨-, -, hd, hlast⟩ := target_eq_ok ht
  have hname := isName_of_mem_steps (List.mem_of_getLast? hlast) hspecial
  exact ⟨hw ▸ h.tree.put hd hname (.inr hnot), hgrows.cwd ▸ hgrows.directory _ h.cwd⟩

theorem writeArtifacts_keeps {motive : Workspace → Prop}
    (directory : ∀ {w w' : Workspace} {path : Text}, motive w →
      w.makeDirectory path = .ok w' → motive w')
    (file : ∀ {w w' : Workspace} {path : Text} {bytes : ByteArray}, motive w →
      w.writeFile path bytes = .ok w' → motive w')
    (h : motive w) (artifacts : List Artifact) : motive (w.writeArtifacts artifacts).1 := by
  have hkeep {w w' : Workspace} {path : Text} (h : motive w)
      (hk : w.keepDirectory path = .ok w') : motive w' := by
    rw [keepDirectory] at hk
    split at hk
    · next hm =>
      cases hk
      exact directory h hm
    · split at hk
      · cases hk
        exact h
      · cases hk
  have hensure (w : Workspace) (root : Text) (names : List Text) (h : motive w) :
      motive (w.ensureUpward root names).1 := by
    induction names generalizing w with
    | nil =>
      rw [ensureUpward]
      split
      · next hk => exact hkeep h hk
      · exact h
    | cons name above ih =>
      rw [ensureUpward]
      split
      · next hk => exact hkeep h hk
      · have hup := ih w h
        split
        · next he => simpa [he] using hup
        · next he =>
          rw [he] at hup
          split
          · next hk => exact hkeep hup hk
          · exact hup
      · exact h
  induction artifacts generalizing w with
  | nil => exact h
  | cons a rest ih =>
    have hup := hensure w a.path.parent.root a.path.parent.parts.reverse h
    have hfirst : motive (w.writeArtifact a).1 := by
      rw [writeArtifact, ensureDirectory]
      split
      · next he => simpa [he] using hup
      · next he =>
        rw [he] at hup
        split
        · next hf => exact file hup hf
        · exact hup
    exact ih hfirst

theorem WellFormed.writeArtifacts (h : w.WellFormed) (artifacts : List Artifact) :
    (w.writeArtifacts artifacts).1.WellFormed :=
  writeArtifacts_keeps (fun h hm => h.makeDirectory hm) (fun h hf => h.writeFile hf) h artifacts

end Workspace

end SliceIdl
