import Mathlib.Data.List.Basic
import SliceIdl.Compile.Artifact

/-!
# Writing into a workspace

Making a directory adds one where nothing was, and writing a file replaces no directory. So nothing
goes away: a path that leads to a place leads there from then on, and a file keeps its contents
until something is written to its own place.
-/

set_option autoImplicit false

namespace SliceIdl

theorem exists_last {α : Type} {xs : List α} {p : α → Prop} {x : α} (hx : x ∈ xs) (hp : p x) :
    ∃ before last after, xs = before ++ last :: after ∧ p last ∧ ∀ y ∈ after, ¬ p y := by
  induction xs generalizing x with
  | nil => cases hx
  | cons first rest ih =>
    by_cases hrest : ∃ y ∈ rest, p y
    · obtain ⟨y, hy, hpy⟩ := hrest
      obtain ⟨before, last, after, rfl, hlast, hafter⟩ := ih hy hpy
      exact ⟨first :: before, last, after, rfl, hlast, hafter⟩
    · have hnone : ∀ y ∈ rest, ¬ p y := fun y hy hpy => hrest ⟨y, hy, hpy⟩
      rcases List.mem_cons.1 hx with rfl | hmem
      · exact ⟨[], x, rest, rfl, hp, hnone⟩
      · exact absurd hp (hnone x hmem)

namespace FileTree

theorem lookup_filter_ne {entries : List (Place × Entry)} {p q : Place} (h : q ≠ p) :
    (entries.filter fun x => x.1 != p).lookup q = entries.lookup q := by
  induction entries with
  | nil => rfl
  | cons x entries ih =>
    obtain ⟨place, e⟩ := x
    by_cases hp : place = p
    · subst hp
      have hq : (q == place) = false := by simpa using h
      simp [List.lookup_cons, hq, ih]
    · simp [hp, List.lookup_cons, ih]

theorem find?_put_self (t : FileTree) {p : Place} (e : Entry) (h : p ≠ []) :
    (t.put p e).find? p = some e := by
  simp [find?, put, h]

theorem find?_put_of_ne (t : FileTree) {p q : Place} (e : Entry) (h : q ≠ p) :
    (t.put p e).find? q = t.find? q := by
  have hq : (q == p) = false := by simpa using h
  simp [find?, put, List.lookup_cons, hq, lookup_filter_ne h]

theorem walk_cons {t : FileTree} {p q : Place} {s : Text} {rest : List Text}
    (h : t.walk p (s :: rest) = .ok q) :
    t.find? p = some .directory ∧
      (s = currentSegment ∧ t.walk p rest = .ok q ∨
        s = Path.parentSegment ∧ t.walk p.dropLast rest = .ok q ∨
        s ≠ currentSegment ∧ s ≠ Path.parentSegment ∧ ¬ maxNameSize < byteSize s ∧
          (t.find? (p ++ [s])).isSome ∧ t.walk (p ++ [s]) rest = .ok q) := by
  rw [walk] at h
  split at h
  · next hd =>
    refine ⟨hd, ?_⟩
    split at h
    · next hs => exact .inl ⟨hs, h⟩
    next hs =>
    split at h
    · next hp => exact .inr (.inl ⟨hp, h⟩)
    next hp =>
    split at h
    · cases h
    next hsize =>
    split at h
    · next hsome => exact .inr (.inr ⟨hs, hp, hsize, hsome, h⟩)
    · cases h
  · cases h
  · cases h

theorem walk_append (t : FileTree) (p : Place) (xs ys : List Text) :
    t.walk p (xs ++ ys) = (t.walk p xs).bind fun q => t.walk q ys := by
  induction xs generalizing p with
  | nil => rfl
  | cons s xs ih =>
    rw [List.cons_append, walk, walk]
    split
    · split
      · exact ih p
      split
      · exact ih p.dropLast
      split
      · rfl
      split
      · exact ih (p ++ [s])
      · rfl
    · rfl
    · rfl

/-- Where names lead if they can be followed at all. -/
def descend : Place → List Text → Place
  | p, [] => p
  | p, s :: rest =>
    if s = currentSegment then descend p rest
    else if s = Path.parentSegment then descend p.dropLast rest
    else descend (p ++ [s]) rest

theorem walk_eq_descend {t : FileTree} {p q : Place} {names : List Text}
    (h : t.walk p names = .ok q) : q = descend p names := by
  induction names generalizing p with
  | nil =>
    cases h
    rfl
  | cons s rest ih =>
    obtain ⟨-, ⟨rfl, hw⟩ | ⟨rfl, hw⟩ | ⟨hs, hp, -, -, hw⟩⟩ := walk_cons h
    · exact ih hw
    · exact ih hw
    · rw [descend, if_neg hs, if_neg hp]
      exact ih hw

theorem descend_append (p : Place) (xs ys : List Text) :
    descend p (xs ++ ys) = descend (descend p xs) ys := by
  induction xs generalizing p with
  | nil => rfl
  | cons s xs ih =>
    rw [List.cons_append, descend, descend]
    split
    · exact ih p
    split
    · exact ih p.dropLast
    · exact ih (p ++ [s])

theorem descend_of_down {names : List Text}
    (h : ∀ s ∈ names, s ≠ currentSegment ∧ s ≠ Path.parentSegment) (p : Place) :
    descend p names = p ++ names := by
  induction names generalizing p with
  | nil => simp [descend]
  | cons s rest ih =>
    obtain ⟨hs, hp⟩ := h s List.mem_cons_self
    rw [descend, if_neg hs, if_neg hp, ih fun t ht => h t (List.mem_cons_of_mem _ ht)]
    simp

end FileTree

namespace Workspace
open FileTree

/-- From a workspace to a later one nothing has gone away, directories are still directories, and
what is not at a place of the given kind is as it was. -/
structure Grows (written : Place → Prop) (w w' : Workspace) : Prop where
  cwd : w'.cwd = w.cwd
  directory : ∀ p, w.tree.find? p = some .directory → w'.tree.find? p = some .directory
  present : ∀ p, (w.tree.find? p).isSome → (w'.tree.find? p).isSome
  kept : ∀ p e, ¬ written p → w.tree.find? p = some e → w'.tree.find? p = some e

variable {written other : Place → Prop} {w w' w'' : Workspace}

theorem Grows.refl (w : Workspace) : Grows written w w :=
  ⟨rfl, fun _ h => h, fun _ h => h, fun _ _ _ h => h⟩

theorem Grows.trans (h : Grows written w w') (h' : Grows written w' w'') : Grows written w w'' where
  cwd := h'.cwd.trans h.cwd
  directory p hp := h'.directory p (h.directory p hp)
  present p hp := h'.present p (h.present p hp)
  kept p e hn hp := h'.kept p e hn (h.kept p e hn hp)

theorem Grows.mono (h : Grows written w w') (hle : ∀ p, written p → other p) :
    Grows other w w' :=
  { h with kept := fun p e hn hp => h.kept p e (fun hw => hn (hle p hw)) hp }

theorem Grows.of_kept (hc : w'.cwd = w.cwd)
    (h : ∀ p e, w.tree.find? p = some e → w'.tree.find? p = some e) : Grows written w w' where
  cwd := hc
  directory p hp := h p _ hp
  present p hp := by
    obtain ⟨e, he⟩ := Option.isSome_iff_exists.1 hp
    exact Option.isSome_iff_exists.2 ⟨e, h p e he⟩
  kept p e _ hp := h p e hp

theorem Grows.walk (h : Grows written w w') {p q : Place} {names : List Text}
    (hw : w.tree.walk p names = .ok q) : w'.tree.walk p names = .ok q := by
  induction names generalizing p with
  | nil => exact hw
  | cons s rest ih =>
    obtain ⟨hd, hrest⟩ := walk_cons hw
    rw [FileTree.walk, h.directory p hd]
    rcases hrest with ⟨rfl, hw'⟩ | ⟨rfl, hw'⟩ | ⟨hs, hp, hsize, hsome, hw'⟩
    · exact ih hw'
    · exact ih hw'
    · simp only [hs, hp, hsize, h.present _ hsome, if_false, if_true]
      exact ih hw'

theorem locate_eq_ok {path : Text} {q : Place} :
    w.locate path = .ok q ↔ checkPath path = .ok () ∧
      w.tree.walk (w.origin path) (steps path) = .ok q := by
  rw [locate]
  cases checkPath path with
  | error e => simp [bind, Except.bind]
  | ok u => simp [bind, Except.bind]

theorem Grows.locate (h : Grows written w w') {path : Text} {q : Place}
    (hl : w.locate path = .ok q) : w'.locate path = .ok q := by
  rw [locate_eq_ok] at hl ⊢
  have ho : w'.origin path = w.origin path := by rw [origin, origin, h.cwd]
  exact ⟨hl.1, ho ▸ h.walk hl.2⟩

theorem target_eq_ok {path : Text} {p : Place} {name : Option Text}
    (h : w.target path = .ok (p, name)) :
    checkPath path = .ok () ∧ w.tree.walk (w.origin path) (steps path).dropLast = .ok p ∧
      w.tree.find? p = some .directory ∧ (steps path).getLast? = name := by
  rw [target] at h
  cases hc : checkPath path with
  | error e =>
    rw [hc] at h
    cases h
  | ok u =>
    cases hw : w.tree.walk (w.origin path) (steps path).dropLast with
    | error e =>
      rw [hc] at h
      simp [hw, bind, Except.bind] at h
    | ok q =>
      rw [hc] at h
      simp only [hw, bind, Except.bind] at h
      split at h
      · next hd =>
        simp only [Except.ok.injEq, Prod.mk.injEq] at h
        obtain ⟨rfl, rfl⟩ := h
        exact ⟨rfl, rfl, hd, rfl⟩
      · cases h

theorem makeDirectory_puts {path : Text} (h : w.makeDirectory path = .ok w') :
    ∃ p name, w.target path = .ok (p, some name) ∧ isSpecial name = false ∧
      w.tree.find? (p ++ [name]) = none ∧
      w' = w.withTree (w.tree.put (p ++ [name]) .directory) := by
  rw [makeDirectory] at h
  cases ht : w.target path with
  | error e => simp [ht, bind, Except.bind] at h
  | ok t =>
    obtain ⟨p, _ | name⟩ := t
    · simp [ht, bind, Except.bind] at h
    simp only [ht, bind, Except.bind] at h
    split at h
    · cases h
    next hspecial =>
    split at h
    · cases h
    split at h
    · cases h
    next hnone =>
    cases h
    exact ⟨p, name, rfl, by simpa using hspecial, by simpa using hnone, rfl⟩

theorem writeFile_puts {path : Text} {bytes : ByteArray} (h : w.writeFile path bytes = .ok w') :
    ∃ p name, w.target path = .ok (p, some name) ∧ isSpecial name = false ∧
      ¬ maxNameSize < byteSize name ∧ w.tree.find? (p ++ [name]) ≠ some .directory ∧
      w' = w.withTree (w.tree.put (p ++ [name]) (.file bytes)) := by
  rw [writeFile] at h
  cases ht : w.target path with
  | error e => simp [ht, bind, Except.bind] at h
  | ok t =>
    obtain ⟨p, _ | name⟩ := t
    · simp [ht, bind, Except.bind] at h
    simp only [ht, bind, Except.bind] at h
    split at h
    · cases h
    next hspecial =>
    split at h
    · cases h
    next hsize =>
    split at h
    · cases h
    next hnot =>
    cases h
    exact ⟨p, name, rfl, by simpa using hspecial, hsize, hnot, rfl⟩

theorem makeDirectory_grows {path : Text} (h : w.makeDirectory path = .ok w') :
    Grows written w w' := by
  obtain ⟨p, name, -, -, hnone, rfl⟩ := makeDirectory_puts h
  refine .of_kept rfl fun q e hq => ?_
  have hne : q ≠ p ++ [name] := by
    rintro rfl
    simp [hq] at hnone
  rw [withTree, find?_put_of_ne _ _ hne, hq]

theorem keepDirectory_grows {path : Text} (h : w.keepDirectory path = .ok w') :
    Grows written w w' := by
  rw [keepDirectory] at h
  split at h
  · next hm =>
    cases h
    exact makeDirectory_grows hm
  · split at h
    · cases h
      exact .refl w
    · cases h

theorem ensureUpward_grows (w : Workspace) (root : Text) (names : List Text) :
    Grows written w (w.ensureUpward root names).1 := by
  induction names generalizing w with
  | nil =>
    rw [ensureUpward]
    split
    · next hk => exact keepDirectory_grows hk
    · exact .refl w
  | cons name above ih =>
    rw [ensureUpward]
    split
    · next hk => exact keepDirectory_grows hk
    · have hup := ih w
      split
      · next he => simpa [he] using hup
      · next he =>
        rw [he] at hup
        split
        · next hk => exact hup.trans (keepDirectory_grows hk)
        · exact hup
    · exact .refl w

theorem writeFile_eq_ok {path : Text} {bytes : ByteArray} (h : w.writeFile path bytes = .ok w') :
    ∃ q, w'.locate path = .ok q ∧ w'.tree.find? q = some (.file bytes) ∧ Grows (· = q) w w' := by
  obtain ⟨p, name, ht, hspecial, hsize, hnot, rfl⟩ := writeFile_puts h
  obtain ⟨hc, hw, hd, hlast⟩ := target_eq_ok ht
  have hne : p ++ [name] ≠ [] := by simp
  have hself : (w.tree.put (p ++ [name]) (.file bytes)).find? (p ++ [name]) =
      some (.file bytes) := find?_put_self _ _ hne
  have hdir (q : Place) (hq : w.tree.find? q = some .directory) : q ≠ p ++ [name] := by
    rintro rfl
    exact hnot hq
  have hgrows : Grows (· = p ++ [name]) w
      (w.withTree (w.tree.put (p ++ [name]) (.file bytes))) := by
    refine ⟨rfl, ?_, ?_, ?_⟩
    · intro q hq
      rw [withTree, find?_put_of_ne _ _ (hdir q hq), hq]
    · intro q hq
      by_cases heq : q = p ++ [name]
      · rw [heq, withTree, hself]
        rfl
      · rwa [withTree, find?_put_of_ne _ _ heq]
    · intro q e hq hfind
      rw [withTree, find?_put_of_ne _ _ hq, hfind]
  have hsteps : steps path = (steps path).dropLast ++ [name] := by
    rw [List.dropLast_append_getLast? name (Option.mem_def.2 hlast)]
  have hlocate : (w.withTree (w.tree.put (p ++ [name]) (.file bytes))).locate path =
      .ok (p ++ [name]) := by
    rw [isSpecial, Bool.or_eq_false_iff, beq_eq_false_iff_ne, beq_eq_false_iff_ne] at hspecial
    have horigin : (w.withTree (w.tree.put (p ++ [name]) (.file bytes))).origin path =
        w.origin path := rfl
    rw [locate_eq_ok, hsteps, walk_append, horigin, hgrows.walk hw]
    refine ⟨hc, ?_⟩
    simp only [Except.bind]
    rw [FileTree.walk, hgrows.directory p hd]
    simp [hspecial.1, hspecial.2, hsize, withTree, hself, FileTree.walk]
  exact ⟨p ++ [name], hlocate, hself, hgrows⟩

theorem writeArtifact_eq_none {a : Artifact} (h : w.writeArtifact a = (w', none)) :
    ∃ q, w'.locate a.path.toText = .ok q ∧
      w'.tree.find? q = some (.file (encodeText a.text)) ∧ Grows (· = q) w w' := by
  rw [writeArtifact] at h
  split at h
  · cases h
  next w₁ he =>
  split at h
  · next w₂ hw =>
    cases h
    obtain ⟨q, hl, hf, hg⟩ := writeFile_eq_ok hw
    have hup : Grows (· = q) w w₁ := by
      have hensure : Grows (· = q) w (w.ensureDirectory a.path.parent).1 :=
        ensureUpward_grows w a.path.parent.root a.path.parent.parts.reverse
      rwa [he] at hensure
    exact ⟨q, hl, hf, hup.trans hg⟩
  · cases h

def leadsTo (w : Workspace) (q : Place) (a : Artifact) : Prop :=
  w.locate a.path.toText = .ok q

end Workspace

end SliceIdl
