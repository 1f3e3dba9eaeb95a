import SliceIdl.Proofs.Source.Lexing
import SliceIdl.Proofs.Source.Stability

/-!
# Pieces and what follows them

A token stays the first piece of a text when what follows it is cut off at some place, or goes on
from there with layout. Layout has the form that was described for it, so it stays as well unless
its line or its blanks go on.
-/

set_option autoImplicit false

namespace SliceIdl
open Text Pattern Lexeme

variable {c : Char} {l m r t u v w : Text} {kind : PieceKind} {k : TokenKind}

theorem Piece.first?_cons_eq_some (h : Piece.first? (c :: l ++ r) = some (⟨kind, c :: l⟩, r)) :
    ∃ refusing k p rest, candidates c = refusing ++ (k, p) :: rest ∧
      (∀ q ∈ refusing, q.2.split? (c :: l ++ r) = none) ∧ p.Takes (c :: l) r ∧
      kind = k.refined (c :: l) := by
  rw [List.cons_append, Piece.first?_cons, List.findSome?_eq_some_iff] at h
  obtain ⟨refusing, ⟨k, p⟩, rest, hc, hsome, hnone⟩ := h
  simp only [Option.map_eq_some_iff, Prod.mk.injEq, Piece.mk.injEq] at hsome
  obtain ⟨⟨l', r'⟩, hs, ⟨hkind, rfl⟩, rfl⟩ := hsome
  exact ⟨refusing, k, p, rest, hc, by simpa using hnone, hs, hkind.symm⟩

theorem inside_literalSplit (t : Text) : Inside (literalSplit t).1 := by
  fun_induction literalSplit t with
  | case1 => exact .nil
  | case2 c t hc ih => exact .escape hc ih
  | case3 => exact .nil
  | case4 c t _ hc ih =>
    simp only [not_or] at hc
    exact .char hc.1 hc.2.1 hc.2.2 ih
  | case5 => exact .nil

theorem Pattern.Takes.string (h : Pattern.string.Takes l r) :
    ∃ s, Inside s ∧ l = '"' :: s ++ ['"'] := by
  obtain ⟨_, rfl, hrest⟩ := takes_char_seq_iff.1 h
  obtain ⟨s, _, rfl, hs, hclose⟩ := takes_seq_iff.1 hrest
  obtain rfl := takes_char_iff.1 hclose
  rw [Takes, split?, Option.some.injEq] at hs
  have hinside := inside_literalSplit (s ++ (['"'] ++ r))
  rw [hs] at hinside
  exact ⟨s, hinside, rfl⟩

theorem takes_directive_iff {d : Pattern} : (directive d).Takes l r ↔
    ∃ a m, l = '#' :: a ++ m ∧ IsInline a ∧ HeadNot isInlineBlank (m ++ r) ∧ d.Takes m r := by
  constructor
  · intro h
    obtain ⟨_, rfl, hrest⟩ := takes_char_seq_iff.1 h
    obtain ⟨a, m, rfl, ha, hm⟩ := takes_seq_iff.1 hrest
    obtain ⟨ha, hhead⟩ := takes_run_iff.1 ha
    exact ⟨a, m, rfl, ha, hhead, hm⟩
  · rintro ⟨a, m, rfl, ha, hhead, hm⟩
    exact takes_directive ha hhead hm

theorem Pattern.Takes.pragmaOnce (h : Pattern.pragmaOnce.Takes l r) :
    ∃ a b, IsInline a ∧ IsInline b ∧ b ≠ [] ∧
      l = '#' :: a ++ "pragma".toList ++ b ++ "once".toList := by
  obtain ⟨a, _, rfl, ha, -, hname⟩ := takes_directive_iff.1 h
  obtain ⟨_, rfl, hrest⟩ := takes_word_seq_iff.1 hname
  obtain ⟨b, _, rfl, hb, honce⟩ := takes_seq_iff.1 hrest
  obtain rfl := takes_word_iff.1 honce
  obtain ⟨hne, hb, -⟩ := takes_many1_iff.1 hb
  exact ⟨a, b, ha, hb, hne, by simp⟩

theorem takes_delimited_iff {close : Char} :
    (delimited close).Takes l r ↔ ∃ s, l = s ++ [close] ∧ Within close s := by
  constructor
  · intro h
    obtain ⟨s, _, rfl, hs, hclose⟩ := takes_seq_iff.1 h
    obtain rfl := takes_char_iff.1 hclose
    exact ⟨s, rfl, by simpa [Within] using (takes_run_iff.1 hs).1⟩
  · rintro ⟨s, rfl, hs⟩
    exact takes_delimited hs

theorem takes_includePath_iff : includePath.Takes l r ↔
    (∃ s, l = '<' :: s ++ ['>'] ∧ Within '>' s) ∨ ∃ s, l = '"' :: s ++ ['"'] ∧ Within '"' s := by
  have hdelimited : ∀ {o close}, ((Pattern.char o).seq (delimited close)).Takes l r →
      ∃ s, l = o :: s ++ [close] ∧ Within close s := by
    intro o close h
    obtain ⟨_, rfl, hrest⟩ := takes_char_seq_iff.1 h
    obtain ⟨s, rfl, hs⟩ := takes_delimited_iff.1 hrest
    exact ⟨s, rfl, hs⟩
  constructor
  · intro h
    exact (takes_either_iff.1 h).imp hdelimited fun h => hdelimited h.2
  · rintro (⟨s, rfl, hs⟩ | ⟨s, rfl, hs⟩)
    · exact takes_angled hs
    · exact takes_quoted hs

theorem Pattern.Takes.includeFile (h : Pattern.includeFile.Takes l r) :
    ∃ a b s, IsInline a ∧ IsInline b ∧ b ≠ [] ∧ includePath.Takes s r ∧
      l = '#' :: a ++ "include".toList ++ b ++ s := by
  obtain ⟨a, _, rfl, ha, -, hname⟩ := takes_directive_iff.1 h
  obtain ⟨_, rfl, hrest⟩ := takes_word_seq_iff.1 hname
  obtain ⟨b, s, rfl, hb, hs⟩ := takes_seq_iff.1 hrest
  obtain ⟨hne, hb, -⟩ := takes_many1_iff.1 hb
  exact ⟨a, b, s, ha, hb, hne, hs, by simp⟩

def isOpening (c : Char) : Bool :=
  isSpace c || c == '"' || c == '#' || c == '/'

theorem candidates_steady (hc : isOpening c = false) :
    ∀ k ∈ candidates c, k.2.steady ∧ k.2.avoids := by
  by_cases hp : c ∈ punctuation
  · have hall : punctuation.all fun c =>
        isOpening c || (candidates c).all fun k => k.2.steady && k.2.avoids := by
      decide
    simpa [hc] using List.all_eq_true.1 hall c hp
  · have hfloat : float.steady ∧ float.avoids := by decide
    have hint : Pattern.int.steady ∧ Pattern.int.avoids := by decide
    have hident : ident.steady ∧ ident.avoids := by decide
    rw [candidates_of_not_mem hp]
    split <;> split <;> simp [hfloat, hint, hident]

theorem Piece.first?_of_isOpening (h : Piece.first? (c :: l ++ r) = some (⟨.token k, c :: l⟩, r))
    (hc : isOpening c) (w : Text) :
    Piece.first? (c :: l ++ w) = some (⟨.token k, c :: l⟩, w) := by
  -- Strings and directives end with a delimiter or a whole word, so anything may follow them.
  obtain ⟨refusing, k', p, rest, hcands, -, hp, hk⟩ := first?_cons_eq_some h
  have hmem : (k', p) ∈ candidates c := by simp [hcands]
  simp only [isOpening, Bool.or_eq_true, beq_iff_eq] at hc
  rcases hc with ((hc | rfl) | rfl) | rfl
  · rw [candidates_space hc] at hmem
    obtain ⟨rfl, rfl⟩ : k' = .layout .blanks ∧ p = .blanks := by simpa using hmem
    cases hk
  · have hquote : candidates '"' = [(.token .string, .string)] := rfl
    obtain ⟨rfl, rfl⟩ : k' = .token .string ∧ p = .string := by simpa [hquote] using hmem
    obtain ⟨s, hs, hl⟩ := hp.string
    cases hk
    rw [hl]
    exact first?_string hs
  · rw [candidates_hash] at hmem
    simp only [List.mem_cons, Prod.mk.injEq, List.not_mem_nil, or_false] at hmem
    rcases hmem with ⟨rfl, rfl⟩ | ⟨rfl, rfl⟩ | ⟨rfl, rfl⟩ <;> cases hk
    · obtain ⟨a, b, ha, hb, hne, hl⟩ := hp.pragmaOnce
      rw [hl]
      exact first?_pragmaOnce ha hb hne
    · obtain ⟨a, b, s, ha, hb, hne, hs, hl⟩ := hp.includeFile
      rw [hl]
      rcases takes_includePath_iff.1 hs with ⟨s, rfl, hin⟩ | ⟨s, rfl, hin⟩
      · exact first?_include ha hb hne (takes_angled hin) (headNot_cons.2 rfl)
      · exact first?_include ha hb hne (takes_quoted hin) (headNot_cons.2 rfl)
  · rw [candidates_slash] at hmem
    simp only [List.mem_cons, Prod.mk.injEq, List.not_mem_nil, or_false] at hmem
    rcases hmem with ⟨rfl, rfl⟩ | ⟨rfl, rfl⟩ <;> cases hk

/-- A token stays what it is if the text ends somewhere behind it or goes on there with layout. -/
theorem Piece.first?_recut (h : Piece.first? (l ++ (u ++ w)) = some (⟨.token k, l⟩, u ++ w))
    (hv : Breaks v) : Piece.first? (l ++ (u ++ v)) = some (⟨.token k, l⟩, u ++ v) := by
  obtain ⟨c, l, rfl⟩ := List.exists_cons_of_ne_nil (first?_ne_nil h)
  cases ho : isOpening c with
  | true => exact first?_of_isOpening h ho _
  | false =>
    obtain ⟨refusing, k', p, rest, hc, hn, hp, hk⟩ := first?_cons_eq_some h
    have hsteady := candidates_steady ho
    rw [hc, List.forall_mem_append, List.forall_mem_cons] at hsteady
    obtain ⟨hrefusing, ⟨hs, ha⟩, -⟩ := hsteady
    rw [hk]
    refine first?_of_takes refusing rest hc (fun q hq => ?_) (hp.recut hs ha hv)
    have hq' := hn q hq
    rw [← List.append_assoc] at hq' ⊢
    exact split?_eq_none_recut (hrefusing q hq).1 (hrefusing q hq).2 hv hq'

def Layout.Writes : Layout → Text → Prop
  | blanks, l => ∀ c ∈ l, isSpace c
  | lineComment, l => ∃ s, l = '/' :: '/' :: s ∧ OnLine s
  | blockComment, l =>
    ∃ s, l = '/' :: '*' :: s ++ ['*', '/'] ∧ ∀ a b, s ++ ['*'] ≠ a ++ '*' :: '/' :: b
  | guardLine, l =>
    ∃ a w s, l = '#' :: a ++ w ++ s ∧ IsInline a ∧ w ∈ guardWords ∧
      HeadNot isWordCharacter s ∧ OnLine s

def Layout.fillsLine : Layout → Bool
  | lineComment | guardLine => true
  | blanks | blockComment => false

theorem throughSplit_eq_some (h : throughSplit ['*', '/'] t = some (l, r)) :
    ∃ s, l = s ++ ['*', '/'] ∧ ∀ a b, s ++ ['*'] ≠ a ++ '*' :: '/' :: b := by
  induction t generalizing l with
  | nil => cases h
  | cons c t ih =>
    rw [throughSplit] at h
    split at h
    · cases h
      refine ⟨[], rfl, fun a b hab => ?_⟩
      have hlength := congrArg List.length hab
      simp only [List.nil_append, List.length_append, List.length_cons, List.length_nil] at hlength
      omega
    · next hnone =>
      simp only [Option.map_eq_some_iff, Prod.mk.injEq] at h
      obtain ⟨⟨l', r'⟩, hs, rfl, rfl⟩ := h
      obtain ⟨s, rfl, hfirst⟩ := ih hs
      refine ⟨c :: s, rfl, fun a b hab => ?_⟩
      cases a with
      | cons d a =>
        simp only [List.cons_append, List.cons.injEq] at hab
        exact hfirst a b hab.2
      | nil =>
        -- The delimiter would stand at the very front.
        obtain ⟨rfl, hs'⟩ : c = '*' ∧ s ++ ['*'] = '/' :: b := by simpa using hab
        have ht := throughSplit_append hs
        obtain ⟨t', rfl⟩ : ∃ t', t = '/' :: t' := by
          cases s with
          | nil => simp at hs'
          | cons d s => exact ⟨_, by rw [← ht, (List.cons.inj hs').1]; rfl⟩
        simp [after?] at hnone

theorem Pattern.Takes.wholeWord {ws : List Text} (h : (Pattern.wholeWord ws).Takes l r) :
    l ∈ ws ∧ HeadNot isWordCharacter r := by
  induction ws with
  | nil =>
    obtain ⟨c, -, hc⟩ := takes_one_iff.1 h
    cases hc
  | cons v ws ih =>
    rcases takes_either_iff.1 h with hv | ⟨-, hws⟩
    · obtain ⟨m, rfl, hm⟩ := takes_word_seq_iff.1 hv
      rw [Takes, split?] at hm
      split at hm
      · cases hm
      · next hend =>
        simp only [Option.some.injEq, Prod.mk.injEq] at hm
        obtain ⟨rfl, -⟩ := hm
        refine ⟨by simp, ?_⟩
        cases r <;> simp_all [HeadNot]
    · exact (ih hws).imp (List.mem_cons_of_mem v) id

def Layout.pattern : Layout → Pattern
  | blanks => .blanks
  | lineComment => .lineComment
  | blockComment => .blockComment
  | guardLine => .guardLine

theorem Layout.takes_writes {k : Layout} (h : k.pattern.Takes l r) :
    k.Writes l ∧ (k.fillsLine → HeadNot (· != '\n') r) := by
  cases k with
  | blanks =>
    rw [pattern, blanks_eq_many1] at h
    exact ⟨(takes_many1_iff.1 h).2.1, fun hf => by cases hf⟩
  | lineComment =>
    obtain ⟨s, rfl, hs⟩ := takes_word_seq_iff.1 h
    obtain ⟨hs, hr⟩ := takes_run_iff.1 hs
    exact ⟨⟨s, rfl, by simpa [OnLine] using hs⟩, fun _ => hr⟩
  | blockComment =>
    obtain ⟨m, rfl, hm⟩ := takes_word_seq_iff.1 h
    rw [Takes, split?] at hm
    obtain ⟨s, rfl, hs⟩ := throughSplit_eq_some hm
    exact ⟨⟨s, rfl, hs⟩, fun hf => by cases hf⟩
  | guardLine =>
    obtain ⟨a, _, rfl, ha, -, hline⟩ := takes_directive_iff.1 h
    obtain ⟨w, s, rfl, hw, hs⟩ := takes_seq_iff.1 hline
    obtain ⟨hw, hend⟩ := hw.wholeWord
    obtain ⟨hs, hr⟩ := takes_run_iff.1 hs
    exact ⟨⟨a, w, s, by simp, ha, hw, hend.of_append, by simpa [OnLine] using hs⟩, fun _ => hr⟩

theorem Piece.layout_writes {k : Layout} (h : Piece.first? (l ++ r) = some (⟨.layout k, l⟩, r)) :
    k.Writes l ∧ (k.fillsLine → HeadNot (· != '\n') r) := by
  obtain ⟨⟨kind, p⟩, hmem, hp, hkind⟩ := first?_eq_some h
  have hpattern : ∀ t ∈ terminals, ∀ k, t.1 = .layout k → t.2 = k.pattern := by
    simp [terminals, Layout.pattern]
  have hlayout : kind = .layout k := by
    rw [PieceKind.refined] at hkind
    split at hkind
    · cases hkind
    · exact hkind.symm
  obtain rfl := hpattern _ hmem k hlayout
  exact Layout.takes_writes hp

theorem Layout.Writes.first? {k : Layout} (h : k.Writes l) (hb : k ≠ .blanks)
    (hr : k.fillsLine → HeadNot (· != '\n') r) :
    Piece.first? (l ++ r) = some (⟨.layout k, l⟩, r) := by
  cases k with
  | blanks => exact absurd rfl hb
  | lineComment =>
    obtain ⟨s, rfl, hs⟩ := h
    exact first?_lineComment hs (hr rfl)
  | blockComment =>
    obtain ⟨s, rfl, hs⟩ := h
    simpa using first?_blockComment hs
  | guardLine =>
    obtain ⟨a, w, s, rfl, ha, hw, hend, hs⟩ := h
    exact first?_guardLine ha hw hend hs (hr rfl)

end SliceIdl
