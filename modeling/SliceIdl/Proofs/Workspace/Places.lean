import SliceIdl.Compile.Compilation
import SliceIdl.Proofs.Path.Climbing
import SliceIdl.Proofs.Workspace.Impossible
import SliceIdl.Proofs.Workspace.WellFormed

/-!
# Where paths without `..` lead

Such a path leads to the place of its proper segments, which is what its absolute form consists of.
So two of them with one absolute form lead to one place. The path of a source file leads to a place
where no artifact goes; so it reads the same before and after artifacts are written, whichever
directories are made for them.
-/

set_option autoImplicit false

namespace SliceIdl
open SliceIdl.Path FileTree

namespace Path

/-- No segment of the path leads back up. -/
def StaysDown (p : Text) : Prop :=
  parentSegment ∉ segments p

instance : DecidablePred StaysDown :=
  fun _ => inferInstanceAs (Decidable (_ ∉ _))

def properSegments (p : Text) : List Text :=
  (segments p).filter isProper

theorem segments_append {e : Text} (he : '/' ∉ e) (p : Text) :
    segments (p ++ e) = (segments p).dropLast ++ [(segments p).getLastD [] ++ e] := by
  induction p with
  | nil =>
    rw [List.nil_append, segments_of_slashFree he]
    rfl
  | cons c t ih =>
    obtain ⟨s, rest, hs⟩ := List.exists_cons_of_ne_nil (segments_ne_nil t)
    by_cases hc : c = '/'
    · subst hc
      rw [List.cons_append, segments_slash, segments_slash, ih, hs]
      rfl
    · rw [List.cons_append, segments_cons hc hs]
      obtain ⟨s', rest', hs'⟩ := List.exists_cons_of_ne_nil (segments_ne_nil (t ++ e))
      rw [segments_cons hc hs']
      rw [hs, hs'] at ih
      cases rest <;> simp_all

theorem collapse_of_stays {absolute : Bool} {up ss : List Text} (h : parentSegment ∉ ss) :
    collapse absolute up ss = up.reverse ++ ss := by
  induction ss generalizing up with
  | nil => simp [collapse]
  | cons s ss ih =>
    rw [List.mem_cons, not_or] at h
    have hs : s ≠ parentSegment := Ne.symm h.1
    cases up with
    | nil =>
      rw [collapse, if_neg hs, ih h.2]
      rfl
    | cons last up =>
      rw [collapse, if_neg hs, ih h.2]
      simp

theorem StaysDown.proper {p : Text} (h : StaysDown p) : parentSegment ∉ properSegments p :=
  fun hm => h (List.mem_of_mem_filter hm)

theorem properSegments_normalised {p : Text} (hp : isAbsolute p) (h : StaysDown p) :
    properSegments (normalised p) = properSegments p := by
  have hcollapse : collapse (isAbsolute p) [] ((segments p).filter isProper) = properSegments p :=
    collapse_of_stays h.proper
  rw [normalised, hcollapse]
  have hslash : ∀ s ∈ properSegments p, '/' ∉ s :=
    fun s hs => slashFree_of_mem_segments (List.mem_of_mem_filter hs)
  have hjoined : properSegments (Text.joined ['/'] (properSegments p)) = properSegments p := by
    by_cases hne : properSegments p = []
    · rw [hne]
      rfl
    · rw [properSegments, segments_joined hne hslash]
      exact List.filter_eq_self.2 fun s hs => (List.mem_filter.1 hs).2
  rcases rootOf_of_isAbsolute hp with hr | hr
  · rw [hr]
    exact hjoined
  · rw [hr]
    exact hjoined

theorem properSegments_join {base p : Text} (hb : isAbsolute base) :
    properSegments (join base p) =
      (if isAbsolute p then [] else properSegments base) ++ properSegments p := by
  have hne : base ≠ [] := by
    rintro rfl
    cases hb
  by_cases hp : isAbsolute p
  · rw [join, if_pos hp, if_pos hp, List.nil_append]
  rw [join_of_relative hne (by simpa using hp), if_neg hp]
  split
  · next hend =>
    rw [endsInSlash, beq_iff_eq] at hend
    obtain ⟨before, rfl⟩ := List.getLast?_eq_some_iff.1 hend
    have hbefore : properSegments (before ++ ['/']) = properSegments before := by
      rw [properSegments, segments_append_slash, List.filter_append]
      exact List.append_nil _
    rw [hbefore, properSegments, List.append_assoc, List.singleton_append, segments_append_slash,
      List.filter_append]
    rfl
  · rw [properSegments, segments_append_slash, List.filter_append]
    rfl

theorem stays_append_slash {t u : Text} :
    StaysDown (t ++ '/' :: u) ↔ StaysDown t ∧ StaysDown u := by
  rw [StaysDown, segments_append_slash, List.mem_append, not_or]
  rfl

theorem stays_of_slashFree {s : Text} (hs : '/' ∉ s) (hne : s ≠ parentSegment) :
    StaysDown s := by
  rw [StaysDown, segments_of_slashFree hs, List.mem_singleton]
  exact hne.symm

theorem stays_join {base p : Text} (hb : StaysDown base) (hp : StaysDown p) :
    StaysDown (join base p) := by
  rw [join]
  split
  · exact hp
  split
  · next hend =>
    rw [Bool.or_eq_true, List.isEmpty_iff] at hend
    rcases hend with rfl | hend
    · exact hp
    · rw [endsInSlash, beq_iff_eq] at hend
      obtain ⟨before, rfl⟩ := List.getLast?_eq_some_iff.1 hend
      rw [List.append_assoc, List.singleton_append, stays_append_slash]
      exact ⟨(stays_append_slash.1 hb).1, hp⟩
  · exact stays_append_slash.2 ⟨hb, hp⟩

theorem stays_foldl_join {ss : List Text} (h : ∀ s ∈ ss, StaysDown s) {base : Text}
    (hb : StaysDown base) : StaysDown (ss.foldl join base) := by
  induction ss generalizing base with
  | nil => exact hb
  | cons s ss ih =>
    exact ih (fun t ht => h t (List.mem_cons_of_mem _ ht))
      (stays_join hb (h s List.mem_cons_self))

theorem suffix_join {e p : Text} (h : e <:+ p) (base : Text) : e <:+ join base p := by
  rw [join]
  split
  · exact h
  split
  · exact h.trans (List.suffix_append ..)
  · exact (h.trans (List.suffix_cons ..)).trans (List.suffix_append ..)

end Path

namespace LogicalName

theorem stays_relativePath {name : Text} (h : parentSegment ∉ (segments name).dropLast) :
    StaysDown (relativePath name) := by
  have hslash : ∀ s ∈ segments name, '/' ∉ s := fun s hs => slashFree_of_mem_segments hs
  obtain ⟨upper, last, hname⟩ : ∃ upper last, segments name = upper ++ [last] :=
    ⟨_, _, (List.dropLast_append_getLast (segments_ne_nil name)).symm⟩
  rw [hname] at hslash
  rw [hname, List.dropLast_concat] at h
  have hlast : '/' ∉ last := hslash last (by simp)
  have hlast' : '/' ∉ last ++ sourceExtension := by
    rw [List.mem_append, not_or]
    exact ⟨hlast, by decide⟩
  have hupper : StaysDown (upper.foldl join []) := by
    refine stays_foldl_join (fun s hs => ?_) (by decide)
    exact stays_of_slashFree (hslash s (List.mem_append_left _ hs)) fun he => h (he ▸ hs)
  have hfile : StaysDown (last ++ sourceExtension) := by
    refine stays_of_slashFree hlast' fun he => ?_
    have hends := congrArg List.getLast? he
    rw [List.getLast?_append] at hends
    cases hends
  have hjoin : relativePath name = join (upper.foldl join []) (last ++ sourceExtension) := by
    rw [relativePath, joinAll, hname, List.foldl_append, List.foldl_cons, List.foldl_nil, join,
      join, isAbsolute_of_slashFree hlast, isAbsolute_of_slashFree hlast']
    split
    · simp
    · split <;> simp
  rw [hjoin]
  exact stays_join hupper hfile

theorem source_probePath (root name : Text) : sourceExtension <:+ probePath root name :=
  suffix_join (List.suffix_append ..) root

end LogicalName

namespace FileTree

variable {d p : Text}

theorem steps_join (hp : isAbsolute p = false) (hne : p ≠ []) :
    steps (join d p) = (segments d).filter (fun s => !s.isEmpty) ++ steps p := by
  by_cases hd : d = []
  · subst hd
    have hj : join [] p = p := by simp [join, hp]
    rw [hj]
    rfl
  rw [join_of_relative hd hp]
  split
  · next hslash =>
    rw [endsInSlash, beq_iff_eq] at hslash
    obtain ⟨before, rfl⟩ := List.getLast?_eq_some_iff.1 hslash
    have hbefore : (segments (before ++ ['/'])).filter (fun s => !s.isEmpty) =
        (segments before).filter fun s => !s.isEmpty := by
      rw [segments_append_slash, List.filter_append]
      exact List.append_nil _
    rw [hbefore, steps, endsInSlash_append hne, List.append_assoc, List.singleton_append,
      segments_append_slash, List.filter_append, List.append_assoc, steps]
  · rw [List.append_cons, steps, endsInSlash_append hne, ← List.append_cons,
      segments_append_slash, List.filter_append, List.append_assoc, steps]

theorem descend_steps (q : Place) :
    descend q (steps p) = descend q ((segments p).filter fun s => !s.isEmpty) := by
  -- The dot that asks for a directory leads nowhere else.
  rw [steps, descend_append]
  split <;> rfl

/-- The place that a path leads to from a directory, if it can be followed at all. -/
def placeFrom (cwd : Place) (path : Text) : Place :=
  descend (if isAbsolute path then [] else cwd) (steps path)

theorem placeFrom_join (cwd : Place) (hp : isAbsolute p = false) (hne : p ≠ []) :
    placeFrom cwd (join d p) = descend (placeFrom cwd d) (steps p) := by
  rw [placeFrom, isAbsolute_join hp, steps_join hp hne, descend_append, ← descend_steps, placeFrom]

end FileTree

namespace Workspace

variable {w w' : Workspace} {path path' : Text} {q : Place}

def place (w : Workspace) (path : Text) : Place :=
  w.origin path ++ properSegments path

theorem stays_steps (h : StaysDown path) : parentSegment ∉ steps path := by
  intro hm
  rcases List.mem_append.1 hm with hseg | hdot
  · exact h (List.mem_of_mem_filter hseg)
  · split at hdot
    · cases hdot with
      | tail _ hnil => cases hnil
    · cases hdot

theorem locate_of_stays (h : StaysDown path) (hl : w.locate path = .ok q) : q = w.place path := by
  have hq := walk_eq_descend (locate_eq_ok.1 hl).2
  rw [descend_of_noParent (stays_steps h)] at hq
  rw [hq, place, steps, List.filter_append, List.filter_filter, properSegments]
  have hdots : (if endsInSlash path then [currentSegment] else []).filter
      (· != currentSegment) = [] := by
    split <;> rfl
  rw [hdots, List.append_nil]
  congr 2
  funext s
  rw [isProper, Bool.and_comm]
  rfl

theorem properSegments_cwdPath (h : w.WellFormed) : properSegments w.cwdPath = w.cwd := by
  have hnames : ∀ s ∈ w.cwd, IsName s := h.tree.isName (by rw [h.cwd]; rfl)
  rw [cwdPath, properSegments, segments_slash]
  by_cases hne : w.cwd = []
  · rw [hne]
    rfl
  · rw [segments_joined hne fun s hs => (hnames s hs).2.1, List.filter_cons_of_neg (by decide)]
    refine List.filter_eq_self.2 fun s hs => ?_
    obtain ⟨hempty, -, hdot, -⟩ := hnames s hs
    rw [isProper, Bool.and_eq_true]
    exact ⟨by simpa using hempty, bne_iff_ne.2 hdot⟩

theorem stays_cwdPath (h : w.WellFormed) : StaysDown w.cwdPath := by
  have hnames : ∀ s ∈ w.cwd, IsName s := h.tree.isName (by rw [h.cwd]; rfl)
  rw [StaysDown, cwdPath, segments_slash]
  by_cases hne : w.cwd = []
  · rw [hne]
    decide
  · rw [segments_joined hne fun s hs => (hnames s hs).2.1, List.mem_cons, not_or]
    exact ⟨by decide, fun hm => (hnames _ hm).2.2.2 rfl⟩

theorem properSegments_absolute (h : w.WellFormed) (hp : StaysDown path) :
    properSegments (absolute w.cwdPath path) = w.place path := by
  have habs : isAbsolute w.cwdPath := rfl
  rw [absolute, properSegments_normalised (isAbsolute_join_absolute habs path)
    (stays_join (stays_cwdPath h) hp), properSegments_join habs, properSegments_cwdPath h, place,
    origin]

theorem place_eq_of_absolute_eq (h : w.WellFormed) (hp : StaysDown path) (hp' : StaysDown path')
    (he : absolute w.cwdPath path = absolute w.cwdPath path') : w.place path = w.place path' := by
  rw [← properSegments_absolute h hp, ← properSegments_absolute h hp', he]

def IsArtifactPlace (q : Place) : Prop :=
  ∃ above stem, q = above ++ [stem ++ LogicalName.artifactExtension]

theorem place_of_source (hs : sourceExtension <:+ path) (hl : w.locate path = .ok q) :
    ∃ above stem, q = above ++ [stem ++ sourceExtension] := by
  obtain ⟨before, rfl⟩ := hs
  have hq := walk_eq_descend (locate_eq_ok.1 hl).2
  have hslash : '/' ∉ sourceExtension := by decide
  have hend : endsInSlash (before ++ sourceExtension) = false := by
    rw [endsInSlash_append (by decide)]
    decide
  generalize hstem : (segments before).getLastD [] = stem at hq
  have hlength (s : Text) (h : s.length < 4) : stem ++ sourceExtension ≠ s := by
    rintro rfl
    rw [List.length_append] at h
    exact absurd h (by simp [sourceExtension])
  have hsteps : ∃ upper, steps (before ++ sourceExtension) = upper ++ [stem ++ sourceExtension] := by
    have hne := List.isEmpty_eq_false_iff.2 (hlength [] (by decide))
    refine ⟨(segments before).dropLast.filter fun s => !s.isEmpty, ?_⟩
    rw [steps, hend, segments_append hslash, hstem, List.filter_append, List.filter_singleton, hne]
    simp
  obtain ⟨upper, hsteps⟩ := hsteps
  rw [hsteps, descend_append, descend, if_neg (hlength _ (by decide)),
    if_neg (hlength _ (by decide)), descend] at hq
  exact ⟨_, stem, hq⟩

theorem source_not_artifact {above : Place} {stem : Text} :
    ¬ IsArtifactPlace (above ++ [stem ++ sourceExtension]) := by
  rintro ⟨above', stem', he⟩
  obtain ⟨-, hlast⟩ := List.append_inj' he rfl
  rw [List.singleton_inj] at hlast
  have hends := congrArg List.getLast? hlast
  rw [List.getLast?_append, List.getLast?_append] at hends
  cases hends

theorem read_iff {bytes : ByteArray} : w.read path = .ok bytes ↔
    ∃ q, w.locate path = .ok q ∧ w.tree.find? q = some (.file bytes) := by
  rw [read]
  cases w.locate path with
  | error e => simp [bind, Except.bind]
  | ok q =>
    simp only [bind, Except.bind, Except.ok.injEq, exists_eq_left']
    cases w.tree.find? q with
    | none => simp
    | some e => cases e <;> simp

theorem isFile_iff : w.isFile path ↔ ∃ bytes, w.read path = .ok bytes := by
  simp only [read_iff]
  rw [isFile, entry?]
  cases w.locate path with
  | error e => simp
  | ok q =>
    simp only [Except.ok.injEq, exists_eq_left']
    cases w.tree.find? q with
    | none => simp
    | some e => cases e <;> simp

/-- Directories are made anywhere, and files are written where artifacts go. -/
def Emits (w w' : Workspace) : Prop :=
  Changes (fun _ => True) IsArtifactPlace w w'

/-- What is somewhere before artifacts are written is found by any path without `..` that leads
there afterwards. -/
theorem Emits.locate (h : Emits w w') (hw : w.WellFormed) (hp : StaysDown path)
    (hl : w'.locate path = .ok q) (hs : (w.tree.find? q).isSome) : w.locate path = .ok q := by
  obtain ⟨hc, hwalk⟩ := locate_eq_ok.1 hl
  have hdirectory : ∀ r, w'.tree.find? r = some .directory → (w.tree.find? r).isSome →
      w.tree.find? r = some .directory := by
    intro r hd hsome
    obtain ⟨e, he⟩ := Option.isSome_iff_exists.1 hsome
    cases e with
    | directory => exact he
    | file bytes =>
      obtain ⟨bytes', hb⟩ := Changes.file h he
      rw [hd] at hb
      cases hb
  have horigin : w'.origin path = w.origin path := by rw [origin, origin, Changes.cwd h]
  rw [horigin] at hwalk
  exact locate_eq_ok.2 ⟨hc, hw.tree.walk hdirectory (stays_steps hp) hs hwalk⟩

theorem Emits.read_iff (h : Emits w w') (hw : w.WellFormed) (hp : StaysDown path)
    (hs : sourceExtension <:+ path) {bytes : ByteArray} :
    w'.read path = .ok bytes ↔ w.read path = .ok bytes := by
  rw [Workspace.read_iff, Workspace.read_iff]
  constructor
  · rintro ⟨q, hl, hf⟩
    obtain ⟨above, stem, rfl⟩ := place_of_source hs hl
    have hold : w.tree.find? (above ++ [stem ++ sourceExtension]) = some (.file bytes) := by
      by_contra hne
      exact source_not_artifact (Changes.written h hf hne)
    exact ⟨_, h.locate hw hp hl (by rw [hold]; rfl), hold⟩
  · rintro ⟨q, hl, hf⟩
    have hl' := (Changes.grows h).locate hl
    obtain ⟨above, stem, rfl⟩ := place_of_source hs hl
    exact ⟨_, hl', (Changes.grows h).kept _ _ source_not_artifact hf⟩

end Workspace

end SliceIdl
