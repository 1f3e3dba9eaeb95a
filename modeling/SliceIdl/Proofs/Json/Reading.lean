import SliceIdl.Proofs.Json.Scanning

/-!
# What is read is JSON

The reader takes a value from the front of a text only if the grammar derives what it takes, and it
takes every value that the grammar derives where nothing but a bracket, a comma or whitespace
follows. So a text can be read if and only if it is a JSON text.
-/

set_option autoImplicit false

namespace SliceIdl.Json
open Text (headNot_cons headNot_nil)

variable {t u w r rest : Text} {c : Char} {fuel : Nat}

theorem IsNumber.exists_head (hu : IsNumber u) :
    ∃ c t, u = c :: t ∧ (c.isDigit = true ∨ c = '-') := by
  cases hu with
  | @parts minus whole fraction exponent hm hw _ _ =>
    simp only [List.mem_cons, List.not_mem_nil, or_false] at hm
    rcases hm with rfl | rfl
    · cases hw with
      | zero => exact ⟨'0', _, rfl, .inl rfl⟩
      | positive hd =>
        obtain ⟨d, ds, rfl⟩ := List.exists_cons_of_ne_nil hd.1
        exact ⟨d, _, rfl, .inl (hd.2 d List.mem_cons_self)⟩
    · exact ⟨'-', _, rfl, .inr rfl⟩

theorem IsValue.exists_head (hu : IsValue u) : ∃ c t, u = c :: t ∧ isStop c = Bool.false := by
  cases hu with
  | null | true | false | emptyArray | array | emptyObject | object => exact ⟨_, _, rfl, rfl⟩
  | number h =>
    obtain ⟨c, t, rfl, hc⟩ := h.exists_head
    exact ⟨c, t, rfl, (StartsNumber.ofChar (hc.imp_right .inl)).1⟩
  | string h =>
    cases h with
    | quoted => exact ⟨'"', _, rfl, rfl⟩

theorem IsItems.prepend (hw : IsWhitespace w) (hu : IsItems u) : IsItems (w ++ u) := by
  have hpad {t : Text} (ht : IsText t) : IsText (w ++ t) := by
    cases ht with
    | padded hb hv ha =>
      have h := IsText.padded (List.forall_mem_append.2 ⟨hw, hb⟩) hv ha
      simpa only [List.append_assoc] using h
  cases hu with
  | last h => exact .last (hpad h)
  | next h hr =>
    rw [← List.append_assoc]
    exact .next (hpad h) hr

theorem IsMembers.prepend (hw : IsWhitespace w) (hu : IsMembers u) : IsMembers (w ++ u) := by
  cases hu with
  | last hb hn ha h =>
    have h := IsMembers.last (List.forall_mem_append.2 ⟨hw, hb⟩) hn ha h
    simpa only [List.append_assoc] using h
  | next hb hn ha h hr =>
    have h := IsMembers.next (List.forall_mem_append.2 ⟨hw, hb⟩) hn ha h hr
    simpa only [List.append_assoc] using h

/-- The grammar derives what the three readers take with some fuel. -/
structure Sound (fuel : Nat) : Prop where
  value {t rest : Text} {v : Json} (h : readValue fuel t = some (v, rest)) :
    ∃ u, t = u ++ rest ∧ IsValue u
  items {t rest : Text} {vs : List Json} (h : readItems fuel t = some (vs, rest)) :
    ∃ u, t = u ++ ']' :: rest ∧ IsItems u
  members {t rest : Text} {ms : List (List CodePoint × Json)}
    (h : readMembers fuel t = some (ms, rest)) : ∃ u, t = u ++ '\x7d' :: rest ∧ IsMembers u

theorem Sound.text (hs : Sound fuel) {v : Json} {r : Text}
    (h : readValue fuel (skipSpace t) = some (v, r)) (hr : skipSpace r = rest) :
    ∃ x, t = x ++ rest ∧ IsText x := by
  obtain ⟨before, hb, ht⟩ := exists_skipSpace t
  obtain ⟨u, hu, hv⟩ := hs.value h
  obtain ⟨after, ha, hafter⟩ := exists_skipSpace r
  refine ⟨before ++ u ++ after, ?_, .padded hb hv ha⟩
  rw [ht, hu, hafter, hr]
  simp only [List.append_assoc]

theorem sound_zero : Sound 0 where
  value h := by rw [readValue] at h; cases h
  items h := by rw [readItems] at h; cases h
  members h := by rw [readMembers] at h; cases h

theorem Sound.items_succ (hs : Sound fuel) {vs : List Json}
    (h : readItems (fuel + 1) t = some (vs, rest)) : ∃ u, t = u ++ ']' :: rest ∧ IsItems u := by
  simp only [readItems, Option.bind_eq_bind, Option.bind_eq_some_iff, Prod.exists] at h
  obtain ⟨v, r, hvalue, h⟩ := h
  split at h
  · next u hcomma =>
    obtain ⟨x, rfl, hx⟩ := hs.text hvalue hcomma
    simp only [Option.bind_eq_some_iff, Prod.exists] at h
    obtain ⟨ws, rest', hitems, h⟩ := h
    cases h
    obtain ⟨y, rfl, hy⟩ := hs.items hitems
    exact ⟨_, by simp only [List.append_assoc, List.cons_append], .next hx hy⟩
  · next hbracket =>
    cases h
    obtain ⟨x, rfl, hx⟩ := hs.text hvalue hbracket
    exact ⟨x, rfl, .last hx⟩
  · cases h

theorem Sound.members_succ (hs : Sound fuel) {ms : List (List CodePoint × Json)}
    (h : readMembers (fuel + 1) t = some (ms, rest)) :
    ∃ u, t = u ++ '\x7d' :: rest ∧ IsMembers u := by
  obtain ⟨before, hb, ht⟩ := exists_skipSpace t
  rw [readMembers] at h
  split at h
  · next u hquote =>
    simp only [Option.bind_eq_bind, Option.bind_eq_some_iff, Prod.exists] at h
    obtain ⟨k, t', hname, h⟩ := h
    obtain ⟨inside, rfl, hinside⟩ := readString_sound hname
    obtain ⟨after, ha, ht'⟩ := exists_skipSpace t'
    split at h
    · next t₁ hcolon =>
      simp only [Option.bind_eq_some_iff, Prod.exists] at h
      obtain ⟨v, r, hvalue, h⟩ := h
      rw [ht, hquote, ht', hcolon]
      split at h
      · next hcomma =>
        obtain ⟨x, rfl, hx⟩ := hs.text hvalue hcomma
        simp only [Option.bind_eq_some_iff, Prod.exists] at h
        obtain ⟨ns, rest', hmembers, h⟩ := h
        cases h
        obtain ⟨y, rfl, hy⟩ := hs.members hmembers
        exact ⟨_, by simp only [List.append_assoc, List.cons_append, List.nil_append],
          .next hb (.quoted hinside) ha hx hy⟩
      · next hbrace =>
        cases h
        obtain ⟨x, rfl, hx⟩ := hs.text hvalue hbrace
        exact ⟨_, by simp only [List.append_assoc, List.cons_append, List.nil_append],
          .last hb (.quoted hinside) ha hx⟩
      · cases h
    · cases h
  · cases h

theorem Sound.value_succ (hs : Sound fuel) {v : Json}
    (h : readValue (fuel + 1) t = some (v, rest)) : ∃ u, t = u ++ rest ∧ IsValue u := by
  rw [readValue.eq_def] at h
  dsimp only at h
  split at h
  · next u =>
    simp only [Option.map_eq_some_iff, Prod.exists] at h
    obtain ⟨s, r, hread, h⟩ := h
    cases h
    obtain ⟨inside, rfl, hinside⟩ := readString_sound hread
    exact ⟨_, by simp only [List.cons_append, List.append_assoc, List.nil_append],
      .string (.quoted hinside)⟩
  · next u =>
    obtain ⟨space, hspace, hu⟩ := exists_skipSpace u
    rw [hu]
    split at h
    · next hbracket =>
      cases h
      exact ⟨_, by rw [hbracket]; simp only [List.cons_append, List.append_assoc, List.nil_append],
        .emptyArray hspace⟩
    · simp only [Option.map_eq_some_iff, Prod.exists] at h
      obtain ⟨vs, r, hread, h⟩ := h
      cases h
      obtain ⟨items, hitems, hi⟩ := hs.items hread
      exact ⟨_, by rw [hitems]; simp only [List.cons_append, List.append_assoc, List.nil_append],
        .array (hi.prepend hspace)⟩
  · next u =>
    obtain ⟨space, hspace, hu⟩ := exists_skipSpace u
    rw [hu]
    split at h
    · next hbrace =>
      cases h
      exact ⟨_, by rw [hbrace]; simp only [List.cons_append, List.append_assoc, List.nil_append],
        .emptyObject hspace⟩
    · simp only [Option.map_eq_some_iff, Prod.exists] at h
      obtain ⟨ms, r, hread, h⟩ := h
      cases h
      obtain ⟨members, hmembers, hm⟩ := hs.members hread
      exact ⟨_, by rw [hmembers]; simp only [List.cons_append, List.append_assoc, List.nil_append],
        .object (hm.prepend hspace)⟩
  · obtain ⟨r, hread, h⟩ := Option.map_eq_some_iff.1 h
    cases h
    exact ⟨_, congrArg _ (Text.append_eq_of_after? hread).symm, .null⟩
  · obtain ⟨r, hread, h⟩ := Option.map_eq_some_iff.1 h
    cases h
    exact ⟨_, congrArg _ (Text.append_eq_of_after? hread).symm, .true⟩
  · obtain ⟨r, hread, h⟩ := Option.map_eq_some_iff.1 h
    cases h
    exact ⟨_, congrArg _ (Text.append_eq_of_after? hread).symm, .false⟩
  · obtain ⟨u, rfl, hu⟩ := readNumber_sound h
    exact ⟨u, rfl, .number hu⟩

theorem sound (fuel : Nat) : Sound fuel := by
  induction fuel with
  | zero => exact sound_zero
  | succ fuel ih => exact ⟨ih.value_succ, ih.items_succ, ih.members_succ⟩

theorem readItems_skipSpace (t : Text) : readItems fuel (skipSpace t) = readItems fuel t := by
  cases fuel with
  | zero => rw [readItems, readItems]
  | succ fuel => rw [readItems, readItems, skipSpace_skipSpace]

theorem readMembers_skipSpace (t : Text) : readMembers fuel (skipSpace t) = readMembers fuel t := by
  cases fuel with
  | zero => rw [readMembers, readMembers]
  | succ fuel => rw [readMembers, readMembers, skipSpace_skipSpace]

theorem readValue_array (h : skipSpace t = c :: r) (hc : c ≠ ']') :
    readValue (fuel + 1) ('[' :: t) = (readItems fuel t).map fun r => (.arr r.1, r.2) := by
  rw [← readItems_skipSpace, readValue, h]
  split
  · next heq => exact absurd (List.cons.inj heq).1 hc
  · rfl

theorem readValue_object (h : skipSpace t = c :: r) (hc : c ≠ '\x7d') :
    readValue (fuel + 1) ('\x7b' :: t) = (readMembers fuel t).map fun r => (.obj r.1, r.2) := by
  rw [← readMembers_skipSpace, readValue, h]
  split
  · next heq => exact absurd (List.cons.inj heq).1 hc
  · rfl

theorem readValue_number (hc : c.isDigit = true ∨ c = '-') (t : Text) :
    readValue (fuel + 1) (c :: t) = readNumber (c :: t) := by
  have hother : ∀ d ∈ ['"', '[', '\x7b', 'n', 't', 'f'], ¬ (d.isDigit = true ∨ d = '-') := by
    simp
  have hne (d : Char) (hd : d ∈ ['"', '[', '\x7b', 'n', 't', 'f']) (u : Text) :
      c :: t = d :: u → False := by
    intro h
    exact hother d hd ((List.cons.inj h).1 ▸ hc)
  rw [readValue.eq_def]
  dsimp only
  split
  iterate 6 · next heq => exact (hne _ (by decide) _ heq).elim
  · rfl

section
variable {v : Json} {vs : List Json} {k : List CodePoint} {ms : List (List CodePoint × Json)}

theorem readItems_last (hv : readValue fuel (skipSpace t) = some (v, r))
    (hr : skipSpace r = ']' :: rest) : readItems (fuel + 1) t = some ([v], rest) := by
  simp [readItems, hv, hr]

theorem readItems_next (hv : readValue fuel (skipSpace t) = some (v, r))
    (hr : skipSpace r = ',' :: u) (hvs : readItems fuel u = some (vs, rest)) :
    readItems (fuel + 1) t = some (v :: vs, rest) := by
  simp [readItems, hv, hr, hvs]

theorem readMembers_last {inside t₁ t₂ : Text} (ht : skipSpace t = '"' :: inside)
    (hk : readString inside = some (k, t₁)) (hcolon : skipSpace t₁ = ':' :: t₂)
    (hv : readValue fuel (skipSpace t₂) = some (v, r)) (hr : skipSpace r = '\x7d' :: rest) :
    readMembers (fuel + 1) t = some ([(k, v)], rest) := by
  simp [readMembers, ht, hk, hcolon, hv, hr]

theorem readMembers_next {inside t₁ t₂ : Text} (ht : skipSpace t = '"' :: inside)
    (hk : readString inside = some (k, t₁)) (hcolon : skipSpace t₁ = ':' :: t₂)
    (hv : readValue fuel (skipSpace t₂) = some (v, r)) (hr : skipSpace r = ',' :: u)
    (hms : readMembers fuel u = some (ms, rest)) :
    readMembers (fuel + 1) t = some ((k, v) :: ms, rest) := by
  simp [readMembers, ht, hk, hcolon, hv, hr, hms]

end

/-- Nothing follows, or what ends an item, an array or an object. -/
def Ended (t : Text) : Prop :=
  ∀ d ∈ t.head?, d ∈ [',', ']', '\x7d']

theorem ended_nil : Ended [] := by
  rintro d ⟨⟩

theorem ended_cons {d : Char} (hd : d ∈ [',', ']', '\x7d']) (rest : Text) : Ended (d :: rest) := by
  rintro d' ⟨⟩
  exact hd

theorem ended_comma (rest : Text) : Ended (',' :: rest) :=
  ended_cons List.mem_cons_self rest

theorem Ended.skipSpace_append (hw : IsWhitespace w) (hr : Ended rest) :
    skipSpace (w ++ rest) = rest := by
  have hall : ∀ d ∈ [',', ']', '\x7d'], isSpace d = false := by simp [isSpace]
  rw [Json.skipSpace_append hw]
  cases rest with
  | nil => rfl
  | cons d rest => exact skipSpace_cons (hall d (hr d rfl)) rest

theorem Ended.stopped_append (hw : IsWhitespace w) (hr : Ended rest) : Stopped (w ++ rest) := by
  have hall : ∀ d ∈ [',', ']', '\x7d'], isStop d = true := by simp [isStop, stops]
  cases w with
  | nil =>
    cases rest with
    | nil => exact headNot_nil
    | cons d rest => exact headNot_cons.2 (by simp [hall d (hr d rfl)])
  | cons d w => exact headNot_cons.2 (by simp [(hw.isStop d List.mem_cons_self).1])

theorem IsText.skipSpace_append (ht : IsText t) (rest : Text) :
    ∃ c r, skipSpace (t ++ rest) = c :: r ∧ isStop c = Bool.false := by
  cases ht with
  | padded hb hv ha =>
    obtain ⟨c, u, rfl, hc⟩ := hv.exists_head
    rw [List.append_assoc, List.append_assoc, Json.skipSpace_append hb, List.cons_append,
      skipSpace_cons (isSpace_of_not_isStop hc)]
    exact ⟨c, _, rfl, hc⟩

theorem IsItems.skipSpace_append (hu : IsItems u) (rest : Text) :
    ∃ c r, skipSpace (u ++ rest) = c :: r ∧ isStop c = Bool.false := by
  cases hu with
  | last h => exact h.skipSpace_append rest
  | next h hr =>
    rw [List.append_assoc]
    exact h.skipSpace_append _

theorem IsMembers.skipSpace_append (hu : IsMembers u) (rest : Text) :
    ∃ r, skipSpace (u ++ rest) = '"' :: r := by
  have hname {before name : Text} (hb : IsWhitespace before) (hn : IsString name) (rest : Text) :
      ∃ r, skipSpace (before ++ (name ++ rest)) = '"' :: r := by
    cases hn with
    | quoted =>
      rw [Json.skipSpace_append hb]
      exact ⟨_, rfl⟩
  cases hu with
  | last hb hn ha h =>
    simp only [List.append_assoc]
    exact hname hb hn _
  | next hb hn ha h hr =>
    simp only [List.append_assoc]
    exact hname hb hn _

theorem ne_of_isStop {d : Char} (hc : isStop c = false) (hd : isStop d = true) : c ≠ d := by
  rintro rfl
  rw [hc] at hd
  cases hd

theorem IsString.name_complete {before name after : Text} (hb : IsWhitespace before)
    (hn : IsString name) (ha : IsWhitespace after) (rest : Text) :
    ∃ inside k t, skipSpace (before ++ (name ++ (after ++ ':' :: rest))) = '"' :: inside ∧
      readString inside = some (k, t) ∧ skipSpace t = ':' :: rest := by
  cases hn with
  | quoted h =>
    obtain ⟨k, hk⟩ := readString_complete h (after ++ ':' :: rest)
    refine ⟨_, k, _, ?_, hk, ?_⟩
    · rw [skipSpace_append hb, List.cons_append, List.cons_append, List.append_assoc,
        List.singleton_append, skipSpace_cons (by decide)]
    · rw [skipSpace_append ha, skipSpace_cons (by decide)]

mutual

/-- A value is taken with as much fuel as it has characters. -/
theorem IsValue.complete {u : Text} : IsValue u → {n : Nat} → u.length ≤ n → {r : Text} →
    Stopped r → ∃ v, readValue n (u ++ r) = some (v, r)
  | .null, fuel + 1, _, r, _ => ⟨.null, by simp [readValue, Text.after?]⟩
  | .true, fuel + 1, _, r, _ => ⟨.bool Bool.true, by simp [readValue, Text.after?]⟩
  | .false, fuel + 1, _, r, _ => ⟨.bool Bool.false, by simp [readValue, Text.after?]⟩
  | .number h, fuel, hf, r, hr => by
    obtain ⟨v, hv⟩ := readNumber_complete h hr
    obtain ⟨c, t, rfl, hc⟩ := h.exists_head
    cases fuel with
    | zero => cases hf
    | succ fuel => exact ⟨v, by rwa [List.cons_append, readValue_number hc]⟩
  | .string h, fuel, hf, r, hr => by
    cases h with
    | quoted h =>
      obtain ⟨s, hs⟩ := readString_complete h r
      cases fuel with
      | zero => cases hf
      | succ fuel => exact ⟨.str s, by simp [readValue, hs]⟩
  | .emptyArray hspace, fuel + 1, _, r, _ => by
    have hskip := (ended_cons (d := ']') (by decide) r).skipSpace_append hspace
    exact ⟨.arr [], by simp [readValue, hskip]⟩
  | .array h, fuel + 1, hf, r, _ => by
    rw [List.length_append, List.length_cons, List.length_singleton] at hf
    obtain ⟨vs, hvs⟩ := h.complete (Nat.le_of_succ_le_succ hf) r
    obtain ⟨c, t, hhead, hc⟩ := h.skipSpace_append (']' :: r)
    refine ⟨.arr vs, ?_⟩
    rw [List.append_assoc, List.singleton_append, List.cons_append,
      readValue_array hhead (ne_of_isStop hc rfl), hvs, Option.map_some]
  | .emptyObject hspace, fuel + 1, _, r, _ => by
    have hskip := (ended_cons (d := '\x7d') (by decide) r).skipSpace_append hspace
    exact ⟨.obj [], by simp [readValue, hskip]⟩
  | .object h, fuel + 1, hf, r, _ => by
    rw [List.length_append, List.length_cons, List.length_singleton] at hf
    obtain ⟨ms, hms⟩ := h.complete (Nat.le_of_succ_le_succ hf) r
    obtain ⟨t, hhead⟩ := h.skipSpace_append ('\x7d' :: r)
    refine ⟨.obj ms, ?_⟩
    rw [List.append_assoc, List.singleton_append, List.cons_append,
      readValue_object hhead (by decide), hms, Option.map_some]

theorem IsText.complete {t : Text} : IsText t → {n : Nat} → t.length ≤ n → {rest : Text} →
    Ended rest → ∃ v r, readValue n (skipSpace (t ++ rest)) = some (v, r) ∧ skipSpace r = rest
  | .padded hb hv ha, fuel, hf, rest, hr => by
    rw [List.length_append, List.length_append] at hf
    obtain ⟨v, hread⟩ := hv.complete (n := fuel) (by omega) (hr.stopped_append ha)
    obtain ⟨c, u, rfl, hc⟩ := hv.exists_head
    refine ⟨v, _, ?_, hr.skipSpace_append ha⟩
    rw [List.append_assoc, List.append_assoc, skipSpace_append hb, List.cons_append,
      skipSpace_cons (isSpace_of_not_isStop hc), ← List.cons_append, hread]

theorem IsItems.complete {u : Text} : IsItems u → {n : Nat} → u.length + 1 ≤ n →
    (rest : Text) → ∃ vs, readItems n (u ++ ']' :: rest) = some (vs, rest)
  | .last h, fuel + 1, hf, rest => by
    have hend : Ended (']' :: rest) := ended_cons (by decide) rest
    obtain ⟨v, r, hv, hr⟩ := h.complete (Nat.le_of_succ_le_succ hf) hend
    exact ⟨[v], readItems_last hv hr⟩
  | .next h hr, fuel + 1, hf, rest => by
    rw [List.length_append, List.length_cons] at hf
    obtain ⟨v, r, hv, hcomma⟩ := h.complete (n := fuel) (by omega) (ended_comma _)
    obtain ⟨vs, hvs⟩ := hr.complete (n := fuel) (by omega) rest
    rw [List.append_assoc, List.cons_append]
    exact ⟨v :: vs, readItems_next hv hcomma hvs⟩

theorem IsMembers.complete {u : Text} : IsMembers u → {n : Nat} → u.length + 1 ≤ n →
    (rest : Text) → ∃ ms, readMembers n (u ++ '\x7d' :: rest) = some (ms, rest)
  | .last hb hn ha h, fuel + 1, hf, rest => by
    rw [List.length_append, List.length_cons] at hf
    have hend : Ended ('\x7d' :: rest) := ended_cons (by decide) rest
    obtain ⟨v, r, hv, hr⟩ := h.complete (n := fuel) (by omega) hend
    obtain ⟨inside, k, t, hname, hk, hcolon⟩ := hn.name_complete hb ha _
    simp only [List.append_assoc, List.cons_append]
    exact ⟨[(k, v)], readMembers_last hname hk hcolon hv hr⟩
  | .next hb hn ha h hr, fuel + 1, hf, rest => by
    simp only [List.length_append, List.length_cons] at hf
    obtain ⟨v, r, hv, hcomma⟩ := h.complete (n := fuel) (by omega) (ended_comma _)
    obtain ⟨ms, hms⟩ := hr.complete (n := fuel) (by omega) rest
    obtain ⟨inside, k, t, hname, hk, hcolon⟩ := hn.name_complete hb ha _
    simp only [List.append_assoc, List.cons_append]
    exact ⟨(k, v) :: ms, readMembers_next hname hk hcolon hv hcomma hms⟩

end

/-- A text can be read if and only if it is a JSON text. -/
theorem read?_isSome_iff (t : Text) : (read? t).isSome ↔ IsText t := by
  rw [Option.isSome_iff_exists]
  simp only [read?, Option.bind_eq_bind, Option.bind_eq_some_iff, Prod.exists]
  constructor
  · rintro ⟨v, w, r, hread, h⟩
    split at h
    · next hempty =>
      obtain ⟨x, rfl, hx⟩ := (sound _).text hread (List.isEmpty_iff.1 hempty)
      rwa [List.append_nil]
    · cases h
  · intro ht
    obtain ⟨v, r, hread, hr⟩ := ht.complete (Nat.le_succ _) ended_nil
    rw [List.append_nil] at hread
    exact ⟨v, v, r, hread, by rw [hr]; rfl⟩

end SliceIdl.Json
