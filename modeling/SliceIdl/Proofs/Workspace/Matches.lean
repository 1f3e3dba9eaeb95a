import SliceIdl.Proofs.Workspace.Expansion

/-!
# The texts that patterns match

The table over all endings of a name says what matching item by item says. What is matched by a
pattern with a plain end ends in the same way, so what a pattern for source files stands for are
paths of source files. No pattern without `..` gives a path with `..`.
-/

set_option autoImplicit false

namespace SliceIdl
open SliceIdl.Path FileTree

namespace Wildcard

def someEnding (f : Text → Bool) : Text → Bool
  | [] => f []
  | c :: t => f (c :: t) || someEnding f t

/-- What it means that a text fits the items. -/
def itemsMatch : List WildItem → Text → Bool
  | [], t => t.isEmpty
  | .anyText :: ps, t => someEnding (itemsMatch ps) t
  | .anyChar :: ps, c :: t => let _ := c; itemsMatch ps t
  | .char p :: ps, c :: t => p == c && itemsMatch ps t
  | .set s :: ps, c :: t => s.holds c && itemsMatch ps t
  | _ :: _, [] => false

theorem onEndings_eq_cons (f : Text → Bool) (t : Text) :
    ∃ rest, onEndings f t = f t :: rest := by
  cases t with
  | nil => exact ⟨[], rfl⟩
  | cons c t => exact ⟨onEndings f t, rfl⟩

theorem nowOrLater_onEndings (f : Text → Bool) (t : Text) :
    nowOrLater (onEndings f t) = onEndings (someEnding f) t := by
  induction t with
  | nil => rfl
  | cons c t ih =>
    obtain ⟨rest, hrest⟩ := onEndings_eq_cons (someEnding f) t
    rw [onEndings, onEndings, nowOrLater, ih, hrest, someEnding]

theorem afterOne_onEndings {f : Char → Bool} {g h : Text → Bool} (hnil : h [] = false)
    (hcons : ∀ c t, h (c :: t) = (f c && g t)) (t : Text) :
    afterOne f t (onEndings g t) = onEndings h t := by
  induction t with
  | nil => simp [onEndings, afterOne, hnil]
  | cons c t ih =>
    obtain ⟨rest, hrest⟩ := onEndings_eq_cons g t
    rw [onEndings, onEndings, hrest, afterOne, ← hrest, ih, hcons]

theorem endingsMatch_eq (ps : List WildItem) (t : Text) :
    endingsMatch ps t = onEndings (itemsMatch ps) t := by
  induction ps with
  | nil => rfl
  | cons p ps ih =>
    cases p with
    | anyText => rw [endingsMatch, ih, nowOrLater_onEndings]; rfl
    | anyChar =>
      rw [endingsMatch, ih, afterOne_onEndings (h := itemsMatch (.anyChar :: ps)) rfl]
      intro c t
      rfl
    | char p =>
      rw [endingsMatch, ih, afterOne_onEndings (h := itemsMatch (.char p :: ps)) rfl]
      intro c t
      rfl
    | set s =>
      rw [endingsMatch, ih, afterOne_onEndings (h := itemsMatch (.set s :: ps)) rfl]
      intro c t
      rfl

theorem matches?_eq (pattern name : Text) :
    matches? pattern name = itemsMatch (items pattern) name := by
  obtain ⟨rest, hrest⟩ := onEndings_eq_cons (itemsMatch (items pattern)) name
  rw [matches?, endingsMatch_eq, hrest, List.headD_cons]

theorem takeLeading_suffix (c : Char) (t : Text) : (takeLeading c t).2 <:+ t := by
  cases t with
  | nil => exact List.suffix_rfl
  | cons d t =>
    rw [takeLeading]
    split
    · exact List.suffix_cons d t
    · exact List.suffix_rfl

theorem setSplit?_suffix {t s rest : Text} (h : setSplit? t = some (s, rest)) :
    ']' :: rest <:+ t := by
  rw [setSplit?] at h
  split at h
  · cases h
  · next c rest' hdrop =>
    simp only [Option.some.injEq, Prod.mk.injEq] at h
    obtain ⟨-, rfl⟩ := h
    have hc : c = ']' := by
      have hhead := List.head?_dropWhile_not (· != ']')
        (takeLeading ']' (takeLeading '!' t).2).2
      rw [hdrop] at hhead
      simpa using hhead
    subst hc
    rw [← hdrop]
    exact (List.dropWhile_suffix _).trans
      ((takeLeading_suffix ']' _).trans (takeLeading_suffix '!' t))

/-- A character that means nothing but itself, and ends no set. -/
def IsPlain (c : Char) : Prop :=
  c ≠ '*' ∧ c ≠ '?' ∧ c ≠ '[' ∧ c ≠ ']'

instance : DecidablePred IsPlain :=
  fun _ => inferInstanceAs (Decidable (_ ∧ _ ∧ _ ∧ _))

theorem items_plain {e : Text} (h : ∀ c ∈ e, IsPlain c) : items e = e.map .char := by
  induction e with
  | nil => rw [items, List.map_nil]
  | cons c e ih =>
    obtain ⟨hstar, hmark, hopen, -⟩ := h c List.mem_cons_self
    rw [items, if_neg hstar, if_neg hmark, if_neg hopen, List.map_cons,
      ih fun d hd => h d (List.mem_cons_of_mem _ hd)]

theorem items_append_plain {e : Text} (h : ∀ c ∈ e, IsPlain c) (p : Text) :
    ∃ its, items (p ++ e) = its ++ e.map .char := by
  induction hn : p.length using Nat.strongRecOn generalizing p with
  | ind n ih =>
    cases p with
    | nil => exact ⟨[], items_plain h⟩
    | cons c p =>
      have hrest : ∀ p' : Text, p'.length ≤ p.length →
          ∃ its, items (p' ++ e) = its ++ e.map .char := by
        intro p' hp'
        rw [List.length_cons] at hn
        exact ih p'.length (by omega) p' rfl
      obtain ⟨its, hits⟩ := hrest p (Nat.le_refl _)
      rw [List.cons_append, items]
      split
      · exact ⟨.anyText :: its, by rw [hits, List.cons_append]⟩
      split
      · exact ⟨.anyChar :: its, by rw [hits, List.cons_append]⟩
      split
      · split
        · next s rest hsplit =>
          obtain ⟨before, hbefore⟩ := setSplit?_suffix hsplit
          rcases List.append_eq_append_iff.1 hbefore with ⟨mid, rfl, hmid⟩ | ⟨mid, -, hmid⟩
          · cases mid with
            | nil =>
              rw [List.nil_append] at hmid
              exact absurd rfl (h ']' (hmid ▸ List.mem_cons_self)).2.2.2
            | cons d mid =>
              obtain ⟨-, rfl⟩ := List.cons_eq_cons.1 hmid
              obtain ⟨its', hits'⟩ := hrest mid (by simp; omega)
              exact ⟨.set (.ofText s) :: its', congrArg (.set (.ofText s) :: ·) hits'⟩
          · exact absurd rfl (h ']' (by simp [hmid])).2.2.2
        · exact ⟨.char '[' :: its, by rw [hits, List.cons_append]⟩
      · exact ⟨.char c :: its, by rw [hits, List.cons_append]⟩

theorem exists_of_someEnding {f : Text → Bool} {t : Text} (h : someEnding f t = true) :
    ∃ t', t' <:+ t ∧ f t' = true := by
  induction t with
  | nil => exact ⟨[], List.suffix_rfl, h⟩
  | cons c t ih =>
    rw [someEnding, Bool.or_eq_true] at h
    rcases h with hnow | hlater
    · exact ⟨c :: t, List.suffix_rfl, hnow⟩
    · obtain ⟨t', ht, hf⟩ := ih hlater
      exact ⟨t', ht.trans (List.suffix_cons c t), hf⟩

theorem eq_of_itemsMatch_char {e t : Text} (h : itemsMatch (e.map .char) t = true) : t = e := by
  induction e generalizing t with
  | nil => simpa [itemsMatch] using h
  | cons c e ih =>
    cases t with
    | nil => cases h
    | cons d t =>
      rw [List.map_cons, itemsMatch, Bool.and_eq_true, beq_iff_eq] at h
      rw [h.1, ih h.2]

theorem suffix_of_itemsMatch {its : List WildItem} {e t : Text}
    (h : itemsMatch (its ++ e.map .char) t = true) : e <:+ t := by
  induction its generalizing t with
  | nil => exact eq_of_itemsMatch_char h ▸ List.suffix_rfl
  | cons item its ih =>
    cases item with
    | anyText =>
      obtain ⟨t', ht, hf⟩ := exists_of_someEnding h
      exact (ih hf).trans ht
    | anyChar =>
      cases t with
      | nil => cases h
      | cons c t => exact (ih h).trans (List.suffix_cons c t)
    | char c =>
      cases t with
      | nil => cases h
      | cons d t =>
        rw [List.cons_append, itemsMatch, Bool.and_eq_true] at h
        exact (ih h.2).trans (List.suffix_cons d t)
    | set s =>
      cases t with
      | nil => cases h
      | cons d t =>
        rw [List.cons_append, itemsMatch, Bool.and_eq_true] at h
        exact (ih h.2).trans (List.suffix_cons d t)

/-- What a pattern matches ends as the pattern does, if that is plain. -/
theorem suffix_of_matches {e pattern name : Text} (he : ∀ c ∈ e, IsPlain c)
    (hp : e <:+ pattern) (h : matches? pattern name = true) : e <:+ name := by
  obtain ⟨before, rfl⟩ := hp
  obtain ⟨its, hits⟩ := items_append_plain he before
  rw [matches?_eq, hits] at h
  exact suffix_of_itemsMatch h

end Wildcard

namespace Glob
open Workspace

variable {w : Workspace} {b : Bool} {d m n path pattern : Text}

theorem of_mem_files (h : path ∈ files w pattern) :
    path = pattern ∨ path ∈ magicPaths w false pattern := by
  rw [files] at h
  split at h
  · rw [List.mem_mergeSort] at h
    exact .inr (List.mem_of_mem_filter h)
  · split at h
    · exact .inl (List.mem_singleton.1 h)
    · cases h

theorem exists_front (p : Text) :
    ∃ front, front ++ lastSegment p = p ∧ parentPath p = withoutEndSlashes front ∧
      (front = [] ∨ ∃ before, front = before ++ ['/']) := by
  refine ⟨(p.reverse.dropWhile (· != '/')).reverse, ?_, rfl, ?_⟩
  · rw [lastSegment, ← List.reverse_append, List.takeWhile_append_dropWhile, List.reverse_reverse]
  · rcases hd : p.reverse.dropWhile (· != '/') with - | ⟨c, rest⟩
    · exact .inl rfl
    · have hc := List.head?_dropWhile_not (· != '/') p.reverse
      rw [hd] at hc
      obtain rfl : c = '/' := by simpa using hc
      exact .inr ⟨rest.reverse, List.reverse_cons⟩

theorem stays_withoutEndSlashes {t : Text} (h : StaysDown t) : StaysDown (withoutEndSlashes t) := by
  rw [withoutEndSlashes]
  split
  · exact h
  · obtain ⟨slashes, hslashes, ht⟩ : ∃ slashes : Text, (∀ c ∈ slashes, c = '/') ∧
        t = (t.reverse.dropWhile (· == '/')).reverse ++ slashes := by
      refine ⟨(t.reverse.takeWhile (· == '/')).reverse, fun c hc => ?_, ?_⟩
      · have hall := List.all_takeWhile (p := (· == '/')) (l := t.reverse)
        rw [List.all_eq_true] at hall
        simpa using hall c (List.mem_reverse.1 hc)
      · rw [← List.reverse_append, List.takeWhile_append_dropWhile, List.reverse_reverse]
    cases slashes with
    | nil => rwa [List.append_nil, ← ht] at *
    | cons c slashes =>
      obtain rfl := hslashes c List.mem_cons_self
      rw [ht] at h
      exact (stays_append_slash.1 h).1

theorem stays_parts {p : Text} (h : StaysDown p) :
    StaysDown (parentPath p) ∧ StaysDown (lastSegment p) := by
  obtain ⟨front, hfront, hparent, rfl | ⟨before, rfl⟩⟩ := exists_front p
  · rw [List.nil_append] at hfront
    rw [hparent, hfront]
    exact ⟨by decide, h⟩
  · rw [← hfront, List.append_assoc, List.singleton_append, stays_append_slash] at h
    rw [hparent]
    refine ⟨stays_withoutEndSlashes ?_, h.2⟩
    exact stays_append_slash.2 ⟨h.1, by decide⟩

theorem stays_of_mem_below (hw : w.WellFormed) {depth : Nat} (h : m ∈ below w b depth d) :
    StaysDown m := by
  induction depth generalizing d m with
  | zero => cases h
  | succ depth ih =>
    obtain ⟨n, hn, -, hm⟩ := mem_below_succ.1 h
    obtain ⟨hne, hs, -, hparent⟩ := isName_of_mem_namesIn hw hn
    rcases hm with rfl | ⟨m', hm', rfl⟩
    · exact stays_of_slashFree hs hparent
    · obtain ⟨hne', hrel'⟩ := relative_of_mem_below hw hm'
      rw [under_eq_join hne' hrel', join_name hne hs hrel', stays_append_slash]
      exact ⟨stays_of_slashFree hs hparent, ih hm'⟩

theorem stays_of_mem_magicPaths (hw : w.WellFormed) (hp : StaysDown pattern)
    (h : path ∈ magicPaths w b pattern) : StaysDown path := by
  induction hn : pattern.length using Nat.strongRecOn generalizing pattern path b with
  | ind n ih =>
    obtain ⟨d, m, hm, rfl, hd⟩ := (mem_magicPaths_iff hw).1 h
    obtain ⟨hparent, hlast⟩ := stays_parts hp
    refine stays_join ?_ ?_
    · split at hd
      next hmagic => exact ih _ (hn ▸ hmagic.2) hparent hd rfl
      next => exact hd ▸ hparent
    · obtain ⟨-, rfl | hbelow⟩ | ⟨hname, -⟩ | rfl := of_mem_matchesIn hw hm
      · decide
      · exact stays_of_mem_below hw hbelow
      · exact stays_of_slashFree hname.2.1 hname.2.2.2
      · exact hlast

theorem stays_of_mem_files (hw : w.WellFormed) (hp : StaysDown pattern)
    (h : path ∈ files w pattern) : StaysDown path := by
  obtain rfl | hm := of_mem_files h
  · exact hp
  · exact stays_of_mem_magicPaths hw hp hm

theorem source_lastSegment (hp : sourceExtension <:+ pattern) :
    sourceExtension <:+ lastSegment pattern := by
  obtain ⟨front, hfront, -, rfl | ⟨before, rfl⟩⟩ := exists_front pattern
  · rwa [← hfront] at hp
  · obtain ⟨stem, hstem⟩ := hp
    rw [← hfront] at hstem
    rcases List.append_eq_append_iff.1 hstem with ⟨mid, hmid, hlast⟩ | ⟨mid, hmid, hlast⟩
    · -- a slash inside the extension
      rcases List.eq_nil_or_concat mid with rfl | ⟨mid', c, rfl⟩
      · rw [hlast]
        exact List.suffix_rfl
      · rw [List.concat_eq_append, ← List.append_assoc] at hmid
        obtain ⟨-, hc⟩ := List.append_inj' hmid rfl
        have hslash : '/' ∈ sourceExtension := by
          rw [hlast, List.singleton_inj.1 hc]
          simp
        exact absurd hslash (by decide)
    · exact ⟨mid, hlast.symm⟩

/-- What a pattern for source files stands for are source files. -/
theorem source_of_mem_files (hw : w.WellFormed) (hp : sourceExtension <:+ pattern)
    (h : path ∈ files w pattern) : sourceExtension <:+ path := by
  obtain rfl | hm := of_mem_files h
  · exact hp
  obtain ⟨d, m, hmatches, rfl, -⟩ := (mem_magicPaths_iff hw).1 hm
  have hlast := source_lastSegment hp
  have hm' : sourceExtension <:+ m := by
    obtain ⟨hrecursive, -⟩ | ⟨-, hmatch⟩ | rfl := of_mem_matchesIn hw hmatches
    · rw [isRecursive, beq_iff_eq] at hrecursive
      rw [hrecursive] at hlast
      exact absurd hlast (by decide)
    · exact Wildcard.suffix_of_matches (by simp [sourceExtension, Wildcard.IsPlain]) hlast hmatch
    · exact hlast
  exact suffix_join hm' d

end Glob

end SliceIdl
