import SliceIdl.Proofs.Load.Sources
import SliceIdl.Proofs.Workspace.Places

/-!
# Names and files

A path leads to one place, and it is the file there that is read. Where a name goes down all the
way, the place of its file is the place of the root with the segments of the name behind it. So two
such names stand for one file only if the directory of one root lies below that of the other, and
below roots that lie apart no file is read, parsed or loaded twice. Names with segments that are
empty, `.` or `..` are other names of such files.
-/

set_option autoImplicit false

namespace SliceIdl
open SliceIdl.Path FileTree Closure

theorem Workspace.locate_eq_placeFrom {w : Workspace} {path : Text} {q : Place}
    (h : w.locate path = .ok q) : q = placeFrom w.cwd path :=
  walk_eq_descend (locate_eq_ok.1 h).2

theorem Workspace.file_of_readText {w : Workspace} {path t : Text} (h : w.readText path = .text t) :
    ∃ bytes, w.tree.find? (placeFrom w.cwd path) = some (.file bytes) ∧
      decodeText? bytes = some t := by
  rw [readText] at h
  split at h
  · next e _ => exact absurd h (e.outcome_ne_text t)
  next bytes hr =>
  obtain ⟨q, hl, hfile⟩ := read_iff.1 hr
  rw [locate_eq_placeFrom hl] at hfile
  split at h
  · next t' hd =>
    cases h
    exact ⟨bytes, hfile, hd⟩
  · cases h

namespace LogicalName

variable {cwd : Place} {name name' root root' : Text}

theorem IsPlain.isRelative (h : IsPlain name) : IsRelative name := by
  rintro s hs rfl
  cases (h [] hs).1

theorem IsPlain.source_down (h : IsPlain name) :
    ∀ s ∈ segments (name ++ sourceExtension), s ≠ [] ∧ s ≠ currentSegment ∧ s ≠ parentSegment := by
  intro s hs
  rw [segments_append sourceExtension_slashFree, List.mem_append, List.mem_singleton] at hs
  rcases hs with hfolder | rfl
  · obtain ⟨hproper, hparent⟩ := h s hfolder
    refine ⟨?_, ?_, hparent⟩ <;>
    · rintro rfl
      cases hproper
  · have hne (s : Text) (hlength : s.length < 4) :
        (segments name).getLastD [] ++ sourceExtension ≠ s := by
      rintro rfl
      rw [List.length_append] at hlength
      exact absurd hlength (by simp [sourceExtension])
    exact ⟨hne _ (by decide), hne _ (by decide), hne _ (by decide)⟩

theorem IsPlain.placeFrom_probePath (h : IsPlain name) (cwd : Place) (root : Text) :
    placeFrom cwd (probePath root name) =
      placeFrom cwd root ++ segments (name ++ sourceExtension) := by
  have hne : relativePath name ≠ [] := by simp [relativePath, sourceExtension]
  have hfilter : (segments (name ++ sourceExtension)).filter (fun s => !s.isEmpty) =
      segments (name ++ sourceExtension) := by
    rw [List.filter_eq_self]
    intro s hs
    simpa using (h.source_down s hs).1
  rw [probePath, placeFrom_join cwd (isAbsolute_relativePath name) hne, descend_steps,
    relativePath_of_isRelative h.isRelative, hfilter]
  exact descend_of_down (fun s hs => (h.source_down s hs).2) _

def LiesBelow (cwd : Place) (inner outer : Text) : Prop :=
  placeFrom cwd outer <+: placeFrom cwd inner ∧ placeFrom cwd inner ≠ placeFrom cwd outer

instance : Decidable (LiesBelow cwd root root') :=
  inferInstanceAs (Decidable (_ ∧ _))

def LieApart (cwd : Place) (roots : List Text) : Prop :=
  ∀ inner ∈ roots, ∀ outer ∈ roots, ¬ LiesBelow cwd inner outer

instance (roots : List Text) : Decidable (LieApart cwd roots) :=
  inferInstanceAs (Decidable (∀ inner ∈ roots, ∀ outer ∈ roots, ¬ LiesBelow cwd inner outer))

theorem liesBelow_of_place_eq (hn : IsPlain name) (hn' : IsPlain name') (hne : name ≠ name')
    (h : placeFrom cwd (probePath root name) = placeFrom cwd (probePath root' name')) :
    LiesBelow cwd root' root ∨ LiesBelow cwd root root' := by
  rw [hn.placeFrom_probePath, hn'.placeFrom_probePath] at h
  have hroots : placeFrom cwd root ≠ placeFrom cwd root' := by
    intro he
    rw [he, List.append_cancel_left_eq] at h
    have hsources := congrArg (Text.joined ['/']) h
    rw [joined_segments, joined_segments, List.append_cancel_right_eq] at hsources
    exact hne hsources
  rcases List.append_eq_append_iff.1 h with ⟨way, hway, -⟩ | ⟨way, hway, -⟩
  · exact .inl ⟨⟨way, hway.symm⟩, hroots.symm⟩
  · exact .inr ⟨⟨way, hway.symm⟩, hroots⟩

end LogicalName

namespace Loader
open LogicalName

variable {Doc : Type} {l : Loader Doc} {names : List Text} {cwd : Place}

theorem liesBelow_of_source?_eq {name name' path path' : Text} (hn : IsPlain name)
    (hn' : IsPlain name') (hne : name ≠ name') (h : l.source? name = some path)
    (h' : l.source? name' = some path') (hplace : placeFrom cwd path = placeFrom cwd path') :
    ∃ root root', l.reader.supplier? name l.roots = some root ∧
      l.reader.supplier? name' l.roots = some root' ∧
      (LiesBelow cwd root' root ∨ LiesBelow cwd root root') := by
  obtain ⟨root, hs, rfl⟩ := Option.map_eq_some_iff.1 h
  obtain ⟨root', hs', rfl⟩ := Option.map_eq_some_iff.1 h'
  exact ⟨root, root', hs, hs', liesBelow_of_place_eq hn hn' hne hplace⟩

theorem source?_injective (hroots : LieApart cwd l.roots) {name name' path path' : Text}
    (hn : IsPlain name) (hn' : IsPlain name') (h : l.source? name = some path)
    (h' : l.source? name' = some path') (hplace : placeFrom cwd path = placeFrom cwd path') :
    name = name' := by
  by_contra hne
  obtain ⟨root, root', hs, hs', hbelow⟩ := liesBelow_of_source?_eq hn hn' hne h h' hplace
  have hr := Reader.supplier?_mem hs
  have hr' := Reader.supplier?_mem hs'
  rcases hbelow with hbelow | hbelow
  · exact hroots root' hr' root hr hbelow
  · exact hroots root hr root' hr' hbelow

/-- No two of the texts that are read, and no two of those that are parsed, are of one file. -/
def FilesOnce (cwd : Place) (es : List LoadEvent) : Prop :=
  ((es.filterMap LoadEvent.readText?).map (placeFrom cwd)).Nodup ∧
    ((es.filterMap LoadEvent.parsedPath?).map (placeFrom cwd)).Nodup

theorem TextsOnce.filesOnce (hroots : LieApart cwd l.roots) {es : List LoadEvent}
    (hnames : ∀ n ∈ names, IsPlain n) (h : l.TextsOnce names es) : FilesOnce cwd es := by
  have hinj : ∀ n ∈ names, ∀ m ∈ names, ∀ x, (l.source? n).map (placeFrom cwd) = some x →
      (l.source? m).map (placeFrom cwd) = some x → n = m := by
    intro n hn m hm x hx hy
    obtain ⟨path, hp, rfl⟩ := Option.map_eq_some_iff.1 hx
    obtain ⟨path', hp', hplace⟩ := Option.map_eq_some_iff.1 hy
    exact source?_injective hroots (hnames n hn) (hnames m hm) hp hp' hplace.symm
  exact ⟨(h.1.map (placeFrom cwd)).nodup hinj, (h.2.map (placeFrom cwd)).nodup hinj⟩

def unitPath (u : Text × LoadedUnit Doc) : Text :=
  probePath u.2.root u.1

theorem unit_source {units : List (Text × LoadedUnit Doc)}
    (h : (l.loadClosure names).1 = .loaded units) {u : Text × LoadedUnit Doc} (hu : u ∈ units) :
    l.source? u.1 = some (unitPath u) := by
  obtain ⟨-, -, hload⟩ := l.loadClosure_units h
  have hsupplier := loadUnit_supplier (hload u.1 u.2 hu)
  rw [source?, hsupplier, Option.map_some, unitPath]

theorem units_nodup (hroots : LieApart cwd l.roots) {units : List (Text × LoadedUnit Doc)}
    (h : (l.loadClosure names).1 = .loaded units) (hnames : ∀ u ∈ units, IsPlain u.1) :
    (units.map fun u => placeFrom cwd (unitPath u)).Nodup := by
  obtain ⟨hnodup, -, -⟩ := l.loadClosure_units h
  apply List.Nodup.map_on _ hnodup.of_map
  intro u hu v hv hplace
  have hname : u.1 = v.1 := source?_injective hroots (hnames u hu) (hnames v hv)
    (unit_source h hu) (unit_source h hv) hplace
  exact List.inj_on_of_nodup_map hnodup hu hv hname

variable (l)

/-- Each name on register is read at most once with success, at the one path where its text is, and
handed to the parser at most once, in every schedule and in whatever way it ends. In a workspace the
text at a path is that of the file at its place. Different names that go down all the way have their
texts in one file only where the directory of one of their roots lies below that of the other. So
with such names and roots no file is read twice with success or parsed twice, and no two units come
from one file. -/
theorem texts_once (names : List Text) :
    (∀ s, l.Reaches names s → s.registered.Nodup ∧ l.TextsOnce s.registered s.events) ∧
    l.TextsOnce (l.run (l.start names)).registered (l.loadClosure names).2 ∧
    (∀ units, (l.loadClosure names).1 = .loaded units →
      ∀ u ∈ units, l.source? u.1 = some (unitPath u)) ∧
    (∀ (w : Workspace) (path t : Text), w.reader.read path = .text t →
      ∃ bytes, w.tree.find? (placeFrom w.cwd path) = some (.file bytes) ∧
        decodeText? bytes = some t) ∧
    ∀ cwd : Place,
      (∀ name name' path path', IsPlain name → IsPlain name' → name ≠ name' →
        l.source? name = some path → l.source? name' = some path' →
        placeFrom cwd path = placeFrom cwd path' →
        ∃ root root', l.reader.supplier? name l.roots = some root ∧
          l.reader.supplier? name' l.roots = some root' ∧
          (LiesBelow cwd root' root ∨ LiesBelow cwd root root')) ∧
      (LieApart cwd l.roots →
        (∀ s, l.Reaches names s → (∀ n ∈ s.registered, IsPlain n) → FilesOnce cwd s.events) ∧
        ((∀ n ∈ (l.run (l.start names)).registered, IsPlain n) →
          FilesOnce cwd (l.loadClosure names).2) ∧
        ∀ units, (l.loadClosure names).1 = .loaded units → (∀ u ∈ units, IsPlain u.1) →
          (units.map fun u => placeFrom cwd (unitPath u)).Nodup) := by
  refine ⟨fun s => l.reaches_textsOnce, l.loadClosure_textsOnce names,
    fun units hu u => unit_source hu, fun w path t => Workspace.file_of_readText,
    fun cwd => ⟨?_, fun hroots => ⟨?_, ?_, ?_⟩⟩⟩
  · intro name name' path path' hn hn' hne h h' hplace
    exact liesBelow_of_source?_eq hn hn' hne h h' hplace
  · intro s h hnames
    exact (l.reaches_textsOnce h).2.filesOnce hroots hnames
  · intro hnames
    exact (l.loadClosure_textsOnce names).filesOnce hroots hnames
  · intro units hu hnames
    exact units_nodup hroots hu hnames

/-- Two roots that lie apart. The name `a` has its text below one of them, and `b` has none. -/
theorem texts_once_apart :
    LieApart [] twoRoots.roots ∧
    (∀ n ∈ (twoRoots.run (twoRoots.start [['a']])).registered, IsPlain n) ∧
    FilesOnce [] (twoRoots.loadClosure [['a']]).2 ∧
    twoRoots.source? ['a'] = some "r/a.ice".toList ∧ twoRoots.source? ['b'] = none := by
  have hroots : LieApart [] twoRoots.roots := by decide
  have hr : twoRoots.run (twoRoots.start [['a']]) =
      twoRoots.runFor 15 (twoRoots.start [['a']]) := twoRoots.run_eq_runFor (by decide)
  have hnames : ∀ n ∈ (twoRoots.run (twoRoots.start [['a']])).registered, IsPlain n := by
    rw [hr]
    unfold IsPlain
    decide
  obtain ⟨-, -, -, -, hall⟩ := twoRoots.texts_once [['a']]
  exact ⟨hroots, hnames, ((hall []).2 hroots).2.1 hnames, by decide, by decide⟩

/-- Two roots of which one lies below the other, and one file. -/
def overlapping : Loader Document where
  reader := .ofFiles [("r/a/b.ice".toList, .text [])]
  language := Document.language
  roots := [['r'], "r/a".toList]

theorem not_always_textsOnce :
    ¬ ∀ (l : Loader Document) (names : List Text),
      ((l.loadClosure names).2.filterMap LoadEvent.readText?).Nodup := by
  intro h
  have hrun : overlapping.run (overlapping.start ["a/b".toList, ['b']]) =
      overlapping.runFor 12 (overlapping.start ["a/b".toList, ['b']]) :=
    overlapping.run_eq_runFor (by decide +kernel)
  have hreads : (overlapping.loadClosure ["a/b".toList, ['b']]).2.filterMap LoadEvent.readText? =
      ["r/a/b.ice".toList, "r/a/b.ice".toList] := by
    rw [loadClosure_readText, hrun]
    decide +kernel
  have hnodup := h overlapping ["a/b".toList, ['b']]
  rw [hreads] at hnodup
  exact absurd hnodup (by decide)

end Loader

end SliceIdl
