import SliceIdl.Path.LogicalName

/-!
# Segments

Taking a path apart at its slashes and putting segments together again undo each other. Joining the
segments as paths does the same where only the last of them may be empty. The normalised form of an
absolute path is one or two slashes and segments that are neither empty nor hold a slash.
-/

set_option autoImplicit false

namespace SliceIdl.Path

def IsSegment (s : Text) : Prop :=
  s ≠ [] ∧ '/' ∉ s

theorem segments_ne_nil (p : Text) : segments p ≠ [] := by
  cases p with
  | nil => simp [segments]
  | cons c t =>
    rw [segments]
    split
    · simp
    · split <;> simp

theorem segments_slash (t : Text) : segments ('/' :: t) = [] :: segments t := rfl

theorem segments_cons {c : Char} (h : c ≠ '/') {t s : Text} {rest : List Text}
    (ht : segments t = s :: rest) : segments (c :: t) = (c :: s) :: rest := by
  rw [segments, if_neg h, ht]

theorem segments_append_slash (t u : Text) :
    segments (t ++ '/' :: u) = segments t ++ segments u := by
  induction t with
  | nil => rfl
  | cons c t ih =>
    by_cases hc : c = '/'
    · subst hc
      rw [List.cons_append, segments_slash, segments_slash, ih, List.cons_append]
    · obtain ⟨s, rest, hs⟩ := List.exists_cons_of_ne_nil (segments_ne_nil t)
      rw [hs, List.cons_append] at ih
      rw [List.cons_append, segments_cons hc ih, segments_cons hc hs, List.cons_append]

theorem segments_of_slashFree {s : Text} (h : '/' ∉ s) : segments s = [s] := by
  induction s with
  | nil => rfl
  | cons c s ih =>
    rw [List.mem_cons, not_or] at h
    exact segments_cons (Ne.symm h.1) (ih h.2)

theorem slashFree_of_mem_segments {p s : Text} (h : s ∈ segments p) : '/' ∉ s := by
  induction p generalizing s with
  | nil => simp_all [segments]
  | cons c t ih =>
    by_cases hc : c = '/'
    · subst hc
      rcases List.mem_cons.1 h with rfl | ht
      · exact List.not_mem_nil
      · exact ih ht
    · obtain ⟨first, rest, hs⟩ := List.exists_cons_of_ne_nil (segments_ne_nil t)
      rw [segments_cons hc hs] at h
      rcases List.mem_cons.1 h with rfl | ht
      · rw [List.mem_cons, not_or]
        exact ⟨Ne.symm hc, ih (hs ▸ List.mem_cons_self)⟩
      · exact ih (hs ▸ List.mem_cons_of_mem _ ht)

theorem joined_cons {s : Text} {ss : List Text} (h : ss ≠ []) :
    Text.joined ['/'] (s :: ss) = s ++ '/' :: Text.joined ['/'] ss := by
  cases ss with
  | nil => exact absurd rfl h
  | cons t ss => simp [Text.joined]

theorem joined_append {ss ts : List Text} (hss : ss ≠ []) (hts : ts ≠ []) :
    Text.joined ['/'] (ss ++ ts) = Text.joined ['/'] ss ++ '/' :: Text.joined ['/'] ts := by
  induction ss with
  | nil => exact absurd rfl hss
  | cons s ss ih =>
    rw [List.cons_append, joined_cons (by simp [hts])]
    by_cases hn : ss = []
    · subst hn
      rfl
    · rw [ih hn, joined_cons hn, List.append_assoc, List.cons_append]

theorem segments_joined {ss : List Text} (hne : ss ≠ []) (h : ∀ s ∈ ss, '/' ∉ s) :
    segments (Text.joined ['/'] ss) = ss := by
  induction ss with
  | nil => exact absurd rfl hne
  | cons s ss ih =>
    have hs : segments s = [s] := segments_of_slashFree (h s List.mem_cons_self)
    by_cases hss : ss = []
    · subst hss
      exact hs
    · rw [joined_cons hss, segments_append_slash, hs,
        ih hss fun t ht => h t (List.mem_cons_of_mem _ ht)]
      rfl

theorem joined_segments (p : Text) : Text.joined ['/'] (segments p) = p := by
  induction p with
  | nil => rfl
  | cons c t ih =>
    by_cases hc : c = '/'
    · subst hc
      rw [segments_slash, joined_cons (segments_ne_nil t), ih]
      rfl
    · obtain ⟨s, rest, hs⟩ := List.exists_cons_of_ne_nil (segments_ne_nil t)
      rw [segments_cons hc hs]
      rw [hs] at ih
      by_cases hr : rest = []
      · subst hr
        exact congrArg (c :: ·) ih
      · rw [joined_cons hr] at ih ⊢
        exact congrArg (c :: ·) ih

theorem isAbsolute_of_slashFree {s : Text} (h : '/' ∉ s) : isAbsolute s = false := by
  cases s with
  | nil => rfl
  | cons c s =>
    rw [List.mem_cons, not_or] at h
    simpa [isAbsolute] using Ne.symm h.1

theorem endsInSlash_of_slashFree {s : Text} (h : '/' ∉ s) : endsInSlash s = false := by
  rw [endsInSlash, beq_eq_false_iff_ne]
  exact fun hl => h (List.mem_of_getLast? hl)

theorem endsInSlash_append {t u : Text} (hu : u ≠ []) : endsInSlash (t ++ u) = endsInSlash u := by
  obtain ⟨x, hx⟩ := Option.isSome_iff_exists.1 (List.getLast?_isSome.2 hu)
  rw [endsInSlash, endsInSlash, List.getLast?_append, hx, Option.some_or]

theorem isAbsolute_append {t : Text} (ht : t ≠ []) (u : Text) :
    isAbsolute (t ++ u) = isAbsolute t := by
  obtain ⟨x, hx⟩ := Option.isSome_iff_exists.1 (List.isSome_head?.2 ht)
  rw [isAbsolute, isAbsolute, List.head?_append, hx, Option.some_or]

theorem join_of_relative {base p : Text} (hb : base ≠ []) (hp : isAbsolute p = false) :
    join base p = if endsInSlash base then base ++ p else base ++ '/' :: p := by
  simp [join, hp, hb]

theorem isAbsolute_join {base p : Text} (hp : isAbsolute p = false) :
    isAbsolute (join base p) = isAbsolute base := by
  by_cases hn : base = []
  · subst hn
    have hj : join [] p = p := by simp [join, hp]
    rw [hj, hp]
    rfl
  · rw [join_of_relative hn hp]
    split
    · rw [isAbsolute_append hn]
    · rw [isAbsolute_append hn]

theorem isAbsolute_joinAll {ss : List Text} (h : ∀ s ∈ ss, '/' ∉ s) :
    isAbsolute (joinAll ss) = false := by
  rw [joinAll]
  have hb : isAbsolute [] = false := rfl
  generalize ([] : Text) = base at hb
  induction ss generalizing base with
  | nil => exact hb
  | cons s ss ih =>
    exact ih (fun t ht => h t (List.mem_cons_of_mem _ ht)) _
      ((isAbsolute_join (isAbsolute_of_slashFree (h s List.mem_cons_self))).trans hb)

theorem foldl_join {base : Text} (hb : base ≠ []) (hbs : endsInSlash base = false)
    {ss : List Text} (h : ∀ s ∈ ss, '/' ∉ s) (hne : ∀ s ∈ ss.dropLast, s ≠ []) :
    ss.foldl join base = Text.joined ['/'] (base :: ss) := by
  induction ss generalizing base with
  | nil => rfl
  | cons s ss ih =>
    have hs : '/' ∉ s := h s List.mem_cons_self
    have hj : join base s = base ++ '/' :: s := by
      rw [join_of_relative hb (isAbsolute_of_slashFree hs), hbs, if_neg Bool.false_ne_true]
    rw [List.foldl_cons, hj, joined_cons (List.cons_ne_nil s ss)]
    by_cases hss : ss = []
    · subst hss
      rfl
    · rw [List.dropLast_cons_of_ne_nil hss] at hne
      have hsne : s ≠ [] := hne s List.mem_cons_self
      have hend : endsInSlash (base ++ '/' :: s) = false := by
        rw [List.append_cons, endsInSlash_append hsne]
        exact endsInSlash_of_slashFree hs
      rw [ih (by simp) hend (fun t ht => h t (List.mem_cons_of_mem _ ht))
        (fun t ht => hne t (List.mem_cons_of_mem _ ht)), joined_cons hss, joined_cons hss,
        List.append_assoc, List.cons_append]

theorem joinAll_eq_joined {ss : List Text} (h : ∀ s ∈ ss, '/' ∉ s)
    (hne : ∀ s ∈ ss.dropLast, s ≠ []) : joinAll ss = Text.joined ['/'] ss := by
  cases ss with
  | nil => rfl
  | cons s ss =>
    have hs : '/' ∉ s := h s List.mem_cons_self
    have hj : join [] s = s := by simp [join]
    rw [joinAll, List.foldl_cons, hj]
    by_cases hss : ss = []
    · subst hss
      rfl
    · rw [List.dropLast_cons_of_ne_nil hss] at hne
      exact foldl_join (hne s List.mem_cons_self) (endsInSlash_of_slashFree hs)
        (fun t ht => h t (List.mem_cons_of_mem _ ht)) fun t ht => hne t (List.mem_cons_of_mem _ ht)

/-- A path that does not start with a slash and has no two slashes in a row. -/
def IsRelative (p : Text) : Prop :=
  ∀ s ∈ (segments p).dropLast, s ≠ []

theorem joinAll_segments {p : Text} (h : IsRelative p) : joinAll (segments p) = p := by
  rw [joinAll_eq_joined (fun s hs => slashFree_of_mem_segments hs) h, joined_segments]

theorem dropLast_segments_append {e : Text} (he : '/' ∉ e) (p : Text) :
    (segments (p ++ e)).dropLast = (segments p).dropLast := by
  induction p with
  | nil =>
    rw [List.nil_append, segments_of_slashFree he]
    rfl
  | cons c t ih =>
    by_cases hc : c = '/'
    · subst hc
      rw [List.cons_append, segments_slash, segments_slash,
        List.dropLast_cons_of_ne_nil (segments_ne_nil _), ih,
        List.dropLast_cons_of_ne_nil (segments_ne_nil _)]
    · obtain ⟨s, rest, hs⟩ := List.exists_cons_of_ne_nil (segments_ne_nil t)
      obtain ⟨s', rest', hs'⟩ := List.exists_cons_of_ne_nil (segments_ne_nil (t ++ e))
      rw [List.cons_append, segments_cons hc hs, segments_cons hc hs']
      rw [hs, hs'] at ih
      cases rest <;> cases rest' <;> simp_all

theorem isRelative_append_iff {e : Text} (he : '/' ∉ e) (p : Text) :
    IsRelative (p ++ e) ↔ IsRelative p := by
  rw [IsRelative, IsRelative, dropLast_segments_append he]

/-- One slash or two, and then segments. -/
inductive IsCanonical : Text → Prop
  | one {ss : List Text} (h : ∀ s ∈ ss, IsSegment s) :
      IsCanonical ('/' :: Text.joined ['/'] ss)
  | two {ss : List Text} (h : ∀ s ∈ ss, IsSegment s) :
      IsCanonical ('/' :: '/' :: Text.joined ['/'] ss)

theorem slash_canonical : IsCanonical ['/'] :=
  @IsCanonical.one [] fun _ hs => absurd hs List.not_mem_nil

theorem mem_collapse {absolute : Bool} {up ss : List Text} {s : Text}
    (h : s ∈ collapse absolute up ss) : s ∈ up ∨ s ∈ ss := by
  induction ss generalizing up with
  | nil => exact .inl (List.mem_reverse.1 h)
  | cons t ss ih =>
    have push : s ∈ collapse absolute (t :: up) ss → s ∈ up ∨ s ∈ t :: ss := by
      intro hs
      rcases ih hs with hu | hr
      · rcases List.mem_cons.1 hu with rfl | hu
        · exact .inr List.mem_cons_self
        · exact .inl hu
      · exact .inr (List.mem_cons_of_mem _ hr)
    cases up with
    | nil =>
      rw [collapse] at h
      split at h
      · cases absolute with
        | true => exact (ih h).imp_right (List.mem_cons_of_mem _)
        | false => exact push h
      · exact push h
    | cons last up =>
      rw [collapse] at h
      split at h
      · split at h
        · exact push h
        · exact (ih h).imp (List.mem_cons_of_mem _) (List.mem_cons_of_mem _)
      · exact push h

theorem rootOf_of_isAbsolute {p : Text} (h : isAbsolute p) :
    rootOf p = ['/'] ∨ rootOf p = ['/', '/'] := by
  cases p with
  | nil => cases h
  | cons c t =>
    have hc : c = '/' := by simpa [isAbsolute] using h
    subst hc
    rw [rootOf.eq_def]
    split <;> simp_all

theorem normalised_canonical {p : Text} (h : isAbsolute p) : IsCanonical (normalised p) := by
  have hs : ∀ s ∈ collapse (isAbsolute p) [] ((segments p).filter isProper), IsSegment s := by
    intro s hmem
    rcases mem_collapse hmem with hn | hp
    · cases hn
    · rw [List.mem_filter] at hp
      constructor
      · rintro rfl
        cases hp.2
      · exact slashFree_of_mem_segments hp.1
  rw [normalised]
  rcases rootOf_of_isAbsolute h with hr | hr
  · rw [hr]
    exact .one hs
  · rw [hr]
    exact .two hs

theorem isAbsolute_join_absolute {base : Text} (h : isAbsolute base) (p : Text) :
    isAbsolute (join base p) := by
  by_cases hp : isAbsolute p
  · rwa [join, if_pos hp]
  · rwa [isAbsolute_join (by simpa using hp)]

theorem absolute_canonical {cwd : Text} (h : isAbsolute cwd) (p : Text) :
    IsCanonical (absolute cwd p) :=
  normalised_canonical (isAbsolute_join_absolute h p)

theorem isRelative_joined {ss : List Text} (h : ∀ s ∈ ss, IsSegment s) :
    IsRelative (Text.joined ['/'] ss) := by
  by_cases hne : ss = []
  · subst hne
    simp [IsRelative, Text.joined, segments]
  · rw [IsRelative, segments_joined hne fun s hs => (h s hs).2]
    exact fun s hs => (h s (List.dropLast_subset _ hs)).1

theorem not_isRelative_slash {t : Text} : ¬ IsRelative ('/' :: t) := by
  rw [IsRelative, segments_slash, List.dropLast_cons_of_ne_nil (segments_ne_nil t)]
  exact fun h => h [] List.mem_cons_self rfl

theorem IsRelative.after_slash {before after : Text} (h : IsRelative (before ++ '/' :: after)) :
    IsRelative after := by
  rw [IsRelative, segments_append_slash,
    List.dropLast_append_of_ne_nil (segments_ne_nil after)] at h
  exact fun s hs => h s (List.mem_append_right _ hs)

theorem IsCanonical.after_slash {before after : Text} (h : IsCanonical (before ++ '/' :: after)) :
    IsRelative after ∨ before = [] ∧ ∃ t, after = '/' :: t ∧ IsRelative t := by
  generalize hp : before ++ '/' :: after = p at h
  cases h with
  | @one ss hs =>
    have hj := isRelative_joined hs
    cases before with
    | nil =>
      obtain ⟨-, rfl⟩ := List.cons_eq_cons.1 hp
      exact .inl hj
    | cons c before =>
      obtain ⟨-, hb⟩ := List.cons_eq_cons.1 hp
      exact .inl (hb ▸ hj).after_slash
  | @two ss hs =>
    have hj := isRelative_joined hs
    cases before with
    | nil =>
      obtain ⟨-, rfl⟩ := List.cons_eq_cons.1 hp
      exact .inr ⟨rfl, _, rfl, hj⟩
    | cons c before =>
      obtain ⟨-, hb⟩ := List.cons_eq_cons.1 hp
      cases before with
      | nil =>
        obtain ⟨-, rfl⟩ := List.cons_eq_cons.1 hb
        exact .inl hj
      | cons d before =>
        obtain ⟨-, hb'⟩ := List.cons_eq_cons.1 hb
        exact .inl (hb' ▸ hj).after_slash

end SliceIdl.Path
