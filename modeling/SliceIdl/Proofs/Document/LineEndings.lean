import SliceIdl.Document.Parse
import SliceIdl.Proofs.Source.Joining
import SliceIdl.Proofs.Source.TokenTexts

/-!
# Line endings do not matter

A text whose lines end with a carriage return and a line feed is scanned like the text whose lines
end with the line feed alone: the same tokens at the same positions, and the same character at which
the scan stops. Comments and guard lines take the carriage return at the end of their line, blanks
take it with the line feed, and tokens never reach it.
-/

set_option autoImplicit false

namespace SliceIdl
open Text Pattern Lexeme

namespace Text

variable {a b l r t : Text} {c : Char}

def crlf (t : Text) : Text :=
  t.flatMap fun c => if c = '\n' then ['\r', '\n'] else [c]

theorem crlf_append (s t : Text) : crlf (s ++ t) = crlf s ++ crlf t :=
  List.flatMap_append

theorem crlf_newline (t : Text) : crlf ('\n' :: t) = '\r' :: '\n' :: crlf t := rfl

theorem crlf_cons (hc : c ≠ '\n') (t : Text) : crlf (c :: t) = c :: crlf t := by
  simp [crlf, hc]

theorem crlf_of_onLine (h : OnLine t) : crlf t = t := by
  induction t with
  | nil => rfl
  | cons c t ih =>
    obtain ⟨hc, ht⟩ := onLine_cons.1 h
    rw [crlf_cons hc, ih ht]

theorem onLine_of_crlf (h : OnLine (crlf t)) : OnLine t := by
  rintro c hc rfl
  exact h '\n' (List.mem_flatMap.2 ⟨'\n', hc, by simp⟩) rfl

theorem exists_crlf_eq_append (t : Text) :
    ∃ u v, t = u ++ v ∧ crlf t = u ++ crlf v ∧ OnLine u ∧ HeadNot (· != '\n') v := by
  induction t with
  | nil => exact ⟨[], [], rfl, rfl, by simp [OnLine], headNot_nil⟩
  | cons c t ih =>
    by_cases hc : c = '\n'
    · exact ⟨[], c :: t, rfl, rfl, by simp [OnLine], headNot_cons.2 (by simp [hc])⟩
    · obtain ⟨u, v, rfl, hcrlf, hu, hv⟩ := ih
      exact ⟨c :: u, v, rfl, by rw [crlf_cons hc, hcrlf]; rfl, onLine_cons.2 ⟨hc, hu⟩, hv⟩

theorem headNot_of_crlf {p : Char → Bool} (hp : p '\n' = false) (h : HeadNot p (crlf t)) :
    HeadNot p t := by
  cases t with
  | nil => exact headNot_nil
  | cons c t =>
    by_cases hc : c = '\n'
    · exact headNot_cons.2 (by rw [hc, hp])
    · rw [crlf_cons hc] at h
      exact headNot_cons.2 (headNot_cons.1 h)

theorem breaks_crlf (h : HeadNot (· != '\n') t) : Breaks (crlf t) := by
  cases t with
  | nil => exact breaks_nil
  | cons c t =>
    obtain rfl : c = '\n' := by simpa [headNot_cons] using h
    exact breaks_cons.2 (by decide)

theorem head?_crlf (h : t.head? ≠ some '\n') : (crlf t).head? = t.head? := by
  cases t with
  | nil => rfl
  | cons c t =>
    rw [crlf_cons (by simpa using h)]
    rfl

theorem exists_of_crlf_eq_append_cons (hr : c ≠ '\r') (hn : c ≠ '\n')
    (h : crlf t = a ++ c :: b) :
    ∃ a' b', t = a' ++ c :: b' ∧ crlf a' = a ∧ crlf b' = b := by
  induction t generalizing a with
  | nil => simp [crlf] at h
  | cons d t ih =>
    by_cases hd : d = '\n'
    · subst hd
      rw [crlf_newline] at h
      match a with
      | [] => exact absurd (List.cons.inj h).1.symm hr
      | [_] => exact absurd (List.cons.inj (List.cons.inj h).2).1.symm hn
      | x :: y :: a =>
        obtain ⟨hx, hy, ht⟩ : '\r' = x ∧ '\n' = y ∧ crlf t = a ++ c :: b := by simpa using h
        obtain ⟨a', b', rfl, ha, hb⟩ := ih ht
        exact ⟨'\n' :: a', b', rfl, by rw [crlf_newline, ha, hx, hy], hb⟩
    · rw [crlf_cons hd] at h
      cases a with
      | nil =>
        obtain ⟨rfl, rfl⟩ := List.cons.inj h
        exact ⟨[], t, rfl, rfl, rfl⟩
      | cons x a =>
        obtain ⟨rfl, ht⟩ := List.cons.inj h
        obtain ⟨a', b', rfl, ha, hb⟩ := ih ht
        exact ⟨d :: a', b', rfl, by rw [crlf_cons hd, ha], hb⟩

theorem exists_of_crlf_eq_append (hl : OnLine l) (hlast : l.getLast? ≠ some '\r')
    (h : crlf t = l ++ r) : ∃ u, t = l ++ u ∧ crlf u = r := by
  rcases List.eq_nil_or_concat l with rfl | ⟨l, c, rfl⟩
  · exact ⟨t, rfl, h⟩
  · rw [List.concat_eq_append] at *
    have hr : c ≠ '\r' := by simpa using hlast
    rw [List.append_assoc, List.singleton_append] at h
    obtain ⟨a, u, rfl, ha, hu⟩ := exists_of_crlf_eq_append_cons hr (hl c (by simp)) h
    have hline : OnLine (crlf a) := by
      rw [ha]
      exact fun d hd => hl d (List.mem_append_left _ hd)
    rw [crlf_of_onLine (onLine_of_crlf hline)] at ha
    exact ⟨u, by rw [ha, List.append_assoc, List.singleton_append], hu⟩

theorem exists_of_crlf_eq_delimiter (h : crlf t = a ++ '*' :: '/' :: b) :
    ∃ a' b', t = a' ++ '*' :: '/' :: b' ∧ crlf a' = a ∧ crlf b' = b := by
  obtain ⟨a', rest, rfl, ha, hrest⟩ := exists_of_crlf_eq_append_cons (by decide) (by decide) h
  obtain ⟨b', rfl, hb⟩ := exists_of_crlf_eq_append (l := ['/']) (by simp [OnLine]) (by simp) hrest
  exact ⟨a', b', rfl, ha, hb⟩

theorem crlf_delimiter (a b : Text) :
    crlf (a ++ '*' :: '/' :: b) = crlf a ++ '*' :: '/' :: crlf b := by
  rw [crlf_append, crlf_cons (by decide), crlf_cons (by decide)]

theorem crlf_undelimited :
    (∀ x y, crlf t ++ ['*'] ≠ x ++ '*' :: '/' :: y) ↔ ∀ x y, t ++ ['*'] ≠ x ++ '*' :: '/' :: y := by
  have hstar : crlf (t ++ ['*']) = crlf t ++ ['*'] := crlf_append t ['*']
  constructor
  · intro h x y heq
    refine h (crlf x) (crlf y) ?_
    rw [← hstar, heq, crlf_delimiter]
  · intro h x y heq
    rw [← hstar] at heq
    obtain ⟨x', y', heq, -, -⟩ := exists_of_crlf_eq_delimiter heq
    exact h x' y' heq

end Text

variable {l r t : Text} {k : TokenKind} {pos : Position} {y : Layout}

theorem Position.after_crlf (pos : Position) (t : Text) : pos.after (crlf t) = pos.after t := by
  induction t generalizing pos with
  | nil => rfl
  | cons c t ih =>
    by_cases hc : c = '\n'
    · subst hc
      exact ih _
    · rw [crlf_cons hc]
      exact ih _

theorem Piece.first?_crlf_token :
    Piece.first? (l ++ crlf r) = some (⟨.token k, l⟩, crlf r) ↔
      Piece.first? (l ++ r) = some (⟨.token k, l⟩, r) := by
  obtain ⟨u, v, rfl, hcrlf, -, hv⟩ := exists_crlf_eq_append r
  rw [hcrlf]
  exact ⟨fun h => first?_recut h (breaks_of_headNot hv), fun h => first?_recut h (breaks_crlf hv)⟩

theorem guardLine_onLine {a w : Text} (ha : IsInline a) (hw : w ∈ guardWords) :
    OnLine ('#' :: a ++ w) ∧ ('#' :: a ++ w).getLast? ≠ some '\r' := by
  have hall : guardWords.all fun w => w.all (· != '\n') && w.getLast?.any (· != '\r') := rfl
  have hword := List.all_eq_true.1 hall w hw
  simp only [Bool.and_eq_true, List.all_eq_true, Option.any_eq_true, bne_iff_ne] at hword
  obtain ⟨hline, c, hlast, hc⟩ := hword
  refine ⟨onLine_append.2 ⟨onLine_cons.2 ⟨by decide, ha.onLine⟩, hline⟩, ?_⟩
  rw [List.getLast?_append, hlast]
  simpa using hc

theorem Layout.Writes.of_crlf (h : y.Writes l) (hb : y ≠ .blanks)
    (hr : y.fillsLine → HeadNot (· != '\n') r) (ht : crlf t = l ++ r) :
    ∃ m u, t = m ++ u ∧ y.Writes m ∧ (y.fillsLine → HeadNot (· != '\n') u) := by
  cases y with
  | blanks => exact absurd rfl hb
  | lineComment =>
    obtain ⟨s, rfl, -⟩ := h
    obtain ⟨u, rfl, -⟩ := exists_of_crlf_eq_append (l := ['/', '/']) (by simp [OnLine]) (by simp) ht
    obtain ⟨u, v, rfl, -, hu, hv⟩ := exists_crlf_eq_append u
    exact ⟨_, v, rfl, ⟨u, rfl, hu⟩, fun _ => hv⟩
  | blockComment =>
    obtain ⟨s, rfl, hs⟩ := h
    obtain ⟨u, rfl, hu⟩ : ∃ u, t = ['/', '*'] ++ u ∧ crlf u = s ++ '*' :: '/' :: r :=
      exists_of_crlf_eq_append (by simp [OnLine]) (by simp) (by simpa using ht)
    obtain ⟨a, b, rfl, rfl, -⟩ := exists_of_crlf_eq_delimiter hu
    exact ⟨'/' :: '*' :: a ++ ['*', '/'], b, by simp, ⟨a, rfl, crlf_undelimited.1 hs⟩,
      fun hf => by cases hf⟩
  | guardLine =>
    obtain ⟨a, w, s, rfl, ha, hw, hend, -⟩ := h
    obtain ⟨hline, hlast⟩ := guardLine_onLine ha hw
    obtain ⟨u, rfl, hu⟩ : ∃ u, t = '#' :: a ++ w ++ u ∧ crlf u = s ++ r :=
      exists_of_crlf_eq_append hline hlast (by simpa using ht)
    have hword : HeadNot isWordCharacter (s ++ r) := by
      cases s with
      | nil =>
        refine (hr rfl).mono fun d hd => bne_iff_ne.2 ?_
        rintro rfl
        exact absurd hd (by decide)
      | cons d s => exact hend.append_of_ne_nil (by simp)
    rw [← hu] at hword
    obtain ⟨u, v, rfl, -, hline, hv⟩ := exists_crlf_eq_append u
    exact ⟨_, v, by simp, ⟨a, w, u, rfl, ha, hw, (headNot_of_crlf (by decide) hword).of_append,
      hline⟩, fun _ => hv⟩

theorem exists_space_of_crlf {c : Char} (hc : isSpace c) (h : crlf t = c :: l) :
    ∃ d u, t = d :: u ∧ isSpace d := by
  cases t with
  | nil => cases h
  | cons d u =>
    refine ⟨d, u, rfl, ?_⟩
    by_cases hn : d = '\n'
    · rw [hn]
      rfl
    · rw [crlf_cons hn] at h
      rwa [(List.cons.inj h).1]

theorem Piece.first?_crlf_eq_none (h : Piece.first? t = none) : Piece.first? (crlf t) = none := by
  cases hs : Piece.first? (crlf t) with
  | none => rfl
  | some s =>
    obtain ⟨⟨kind, l⟩, r⟩ := s
    have ht := first?_append hs
    rw [← ht] at hs
    cases kind with
    | token k =>
      obtain ⟨hline, hlast⟩ := Piece.onLine hs
      obtain ⟨u, rfl, rfl⟩ := exists_of_crlf_eq_append hline hlast ht.symm
      rw [first?_crlf_token.1 hs] at h
      cases h
    | layout y =>
      obtain ⟨hl, hr⟩ := Piece.layout_writes hs
      by_cases hy : y = .blanks
      · subst hy
        obtain ⟨c, l, rfl⟩ := List.exists_cons_of_ne_nil (first?_ne_nil hs)
        obtain ⟨d, u, rfl, hd⟩ := exists_space_of_crlf (hl c List.mem_cons_self) ht.symm
        rw [first?_blanks hd] at h
        cases h
      · obtain ⟨m, u, rfl, hm, hu⟩ := hl.of_crlf hy hr ht.symm
        rw [hm.first? hy hu] at h
        cases h

theorem Layout.Writes.crlf_writes (h : y.Writes l) (hy : y.fillsLine = false) :
    y.Writes (crlf l) := by
  cases y with
  | blanks =>
    intro c hc
    obtain ⟨d, hd, hmem⟩ := List.mem_flatMap.1 hc
    split at hmem
    · obtain rfl | rfl : c = '\r' ∨ c = '\n' := by simpa using hmem
      · rfl
      · rfl
    · rw [List.mem_singleton.1 hmem]
      exact h d hd
  | blockComment =>
    obtain ⟨s, rfl, hs⟩ := h
    exact ⟨crlf s, by simp [crlf_append, crlf_cons]; rfl, crlf_undelimited.2 hs⟩
  | _ => cases hy

theorem Layout.Writes.append_return (h : y.Writes l) (hy : y.fillsLine) :
    OnLine l ∧ y.Writes (l ++ ['\r']) := by
  cases y with
  | lineComment =>
    obtain ⟨s, rfl, hs⟩ := h
    exact ⟨onLine_cons.2 ⟨by decide, onLine_cons.2 ⟨by decide, hs⟩⟩, s ++ ['\r'], rfl,
      onLine_append.2 ⟨hs, by simp [OnLine]⟩⟩
  | guardLine =>
    obtain ⟨a, w, s, rfl, ha, hw, hend, hs⟩ := h
    refine ⟨onLine_append.2 ⟨(guardLine_onLine ha hw).1, hs⟩, a, w, s ++ ['\r'], by simp, ha, hw,
      ?_, onLine_append.2 ⟨hs, by simp [OnLine]⟩⟩
    cases s with
    | nil => exact headNot_cons.2 (by decide)
    | cons d s => exact hend.append_of_ne_nil (by simp)
  | _ => cases hy

theorem Layout.Writes.startingAt_crlf (h : y.Writes l)
    (hr : y.fillsLine → HeadNot (· != '\n') r) :
    Scan.startingAt pos (crlf (l ++ r)) = Scan.startingAt (pos.after l) (crlf r) := by
  rw [crlf_append]
  cases hf : y.fillsLine with
  | false =>
    rw [(h.crlf_writes hf).startingAt (by simp [hf]), Position.after_crlf]
  | true =>
    obtain ⟨hline, hreturn⟩ := h.append_return hf
    rw [crlf_of_onLine hline]
    cases r with
    | nil => exact h.startingAt hr
    | cons c r =>
      obtain rfl : c = '\n' := by simpa [headNot_cons] using hr hf
      -- The comment or guard line takes the carriage return, which is a blank behind it as well.
      have hlong : Scan.startingAt pos (l ++ ['\r'] ++ '\n' :: crlf r) =
          Scan.startingAt (pos.after (l ++ ['\r'])) ('\n' :: crlf r) :=
        hreturn.startingAt fun _ => headNot_cons.2 rfl
      rw [Position.after_append, List.append_assoc] at hlong
      rw [crlf_newline, Scan.startingAt_space rfl]
      exact hlong

theorem Scan.startingAt_crlf (pos : Position) (t : Text) :
    startingAt pos (crlf t) = startingAt pos t := by
  fun_induction pieces t generalizing pos with
  | case1 t h =>
    have hhead : t.head? ≠ some '\n' := by
      cases t with
      | nil => simp
      | cons c t =>
        rintro heq
        obtain rfl : c = '\n' := by simpa using heq
        rw [first?_blanks rfl] at h
        cases h
    rw [startingAt_of_none h, startingAt_of_none (Piece.first?_crlf_eq_none h), head?_crlf hhead]
  | case2 t p r hfirst _ _ _ _ ih =>
    have ht := Piece.first?_append hfirst
    subst ht
    obtain ⟨kind, l⟩ := p
    cases kind with
    | token k =>
      rw [startingAt_token hfirst, ← ih, crlf_append, crlf_of_onLine (Piece.onLine hfirst).1,
        startingAt_token (Piece.first?_crlf_token.2 hfirst)]
    | layout y =>
      obtain ⟨hl, hr⟩ := Piece.layout_writes hfirst
      rw [startingAt_layout hfirst, hl.startingAt_crlf hr, ih]

namespace Document

/-- A text with its line feeds behind carriage returns has the same outcome. -/
theorem parse_crlf (source : Text) : parse (crlf source) = parse source := by
  have hscan : Scan.ofText (crlf source) = Scan.ofText source := Scan.startingAt_crlf .start source
  rw [parse, parse, parseFile, parseFile, hscan]

end Document

end SliceIdl
