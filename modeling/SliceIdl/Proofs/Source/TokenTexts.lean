import SliceIdl.Proofs.Source.Positions
import SliceIdl.Proofs.Source.Seams

/-!
# The texts of tokens that are found

Whatever a token is followed by, its text is one that was described for its kind. It never leaves
its line: the terminals of tokens take no line feed, and none of them stops behind a carriage
return.
-/

set_option autoImplicit false

namespace SliceIdl
open Text Pattern Lexeme

variable {k : TokenKind} {l r : Text} {kind : PieceKind} {p : Pattern}

theorem Pattern.Takes.ident (h : Pattern.ident.Takes l r) : IsWord l := by
  obtain ⟨_, m, rfl, hfirst, hm⟩ := takes_seq_iff.1 h
  obtain ⟨c, rfl, hc⟩ := takes_one_iff.1 hfirst
  exact ⟨c, m, rfl, hc, (takes_run_iff.1 hm).1⟩

theorem Pattern.Takes.sign (h : Pattern.sign.Takes l r) : IsSign l := by
  rcases takes_maybe_iff.1 h with h | ⟨rfl, -⟩
  · obtain ⟨c, rfl, hc⟩ := takes_one_iff.1 h
    have hc : c = '+' ∨ c = '-' := by simpa using hc
    exact .inr (hc.imp (congrArg fun d => [d]) (congrArg fun d => [d]))
  · exact .inl rfl

theorem Pattern.Takes.int (h : Pattern.int.Takes l r) : Fits ⟨.int, l⟩ := by
  obtain ⟨s, rest, rfl, hs, hrest⟩ := takes_seq_iff.1 h
  rcases takes_either_iff.1 hrest with hhex | ⟨-, hdecimal⟩
  · obtain ⟨_, rfl, hletter⟩ := takes_char_seq_iff.1 hhex
    obtain ⟨_, digits, rfl, hfirst, hdigits⟩ := takes_seq_iff.1 hletter
    obtain ⟨x, rfl, hx⟩ := takes_one_iff.1 hfirst
    obtain ⟨hne, hdigits, -⟩ := takes_many1_iff.1 hdigits
    exact .hexadecimal hs.sign (by simpa using hx) hne hdigits
  · obtain ⟨hne, hdigits, -⟩ := takes_many1_iff.1 hdecimal
    exact .decimal hs.sign hne hdigits

theorem PieceKind.refined_eq_token (h : .token k = kind.refined l) :
    kind = .token k ∨ kind = .token .ident ∧ k = .ofWord l := by
  rw [refined] at h
  split at h
  · next hk => exact .inr ⟨hk, by simpa using h⟩
  · exact .inl h.symm

theorem mark_of_mem_terminals (h : (.token k, p) ∈ terminals)
    (hk : k ∉ [.float, .int, .ident, .string, .pragmaOnce, .includeFile]) :
    ∃ t, (k, t) ∈ marks ∧ ∀ l r, p.Takes l r → l = t := by
  simp only [terminals, List.mem_cons, Prod.mk.injEq, reduceCtorEq, false_and, false_or,
    PieceKind.token.injEq, List.not_mem_nil, or_false] at h
  rcases h with h | h | h | h | h | h | h | h | h | h | h | h | h | h | h | h | h | h | h | h <;>
    obtain ⟨rfl, rfl⟩ := h
  iterate 6 simp at hk
  · exact ⟨_, by decide, fun _ _ => takes_word_iff.1⟩
  all_goals exact ⟨_, by decide, fun _ _ => takes_char_iff.1⟩

theorem fits_of_mem_terminals (h : (.token k, p) ∈ terminals) (hp : p.Takes l r)
    (hk : k ∉ [.float, .ident]) : Fits ⟨k, l⟩ := by
  by_cases hlisted : k ∈ [.float, .int, .ident, .string, .pragmaOnce, .includeFile]
  · simp only [List.mem_cons, List.not_mem_nil, or_false] at hlisted
    rcases hlisted with rfl | rfl | rfl | rfl | rfl | rfl
    · simp at hk
    · obtain rfl : p = Pattern.int := by simpa [terminals] using h
      exact hp.int
    · simp at hk
    · obtain rfl : p = Pattern.string := by simpa [terminals] using h
      obtain ⟨s, hs, rfl⟩ := hp.string
      exact .string hs
    · obtain rfl : p = Pattern.pragmaOnce := by simpa [terminals] using h
      obtain ⟨a, b, ha, hb, hne, rfl⟩ := hp.pragmaOnce
      exact .pragmaOnce ha hb hne
    · obtain rfl : p = Pattern.includeFile := by simpa [terminals] using h
      obtain ⟨a, b, _, ha, hb, hne, hs, rfl⟩ := hp.includeFile
      rcases takes_includePath_iff.1 hs with ⟨s, rfl, hin⟩ | ⟨s, rfl, hin⟩
      · simpa using Fits.includeAngle ha hb hne hin
      · simpa using Fits.includeQuote ha hb hne hin
  · obtain ⟨t, ht, htakes⟩ := mark_of_mem_terminals h hlisted
    rw [htakes l r hp]
    exact .mark ht

/-- A token that is found fits its kind. -/
theorem Piece.fits (h : Piece.first? (l ++ r) = some (⟨.token k, l⟩, r)) (hk : k ≠ .float) :
    Fits ⟨k, l⟩ := by
  obtain ⟨⟨kind, p⟩, hmem, hp, hkind⟩ := first?_eq_some h
  replace hp : p.Takes l r := hp
  by_cases hident : kind = .token .ident
  · subst hident
    obtain rfl : p = Pattern.ident := by simpa [terminals] using hmem
    obtain rfl : k = .ofWord l := by simpa [PieceKind.refined] using hkind
    exact .word hp.ident
  · obtain rfl : kind = .token k :=
      (PieceKind.refined_eq_token hkind).resolve_right fun h => hident h.1
    have hk' : k ≠ .ident := fun h => hident (congrArg PieceKind.token h)
    exact fits_of_mem_terminals hmem hp (by simp [hk, hk'])

theorem pieces_fit {source text : Text} {kind : TokenKind} (hk : kind ≠ .float)
    (h : ⟨.token kind, text⟩ ∈ (pieces source).1) : Fits ⟨kind, text⟩ := by
  fun_induction pieces source with
  | case1 => cases h
  | case2 source p r hfirst _ ps rest heq ih =>
    rw [heq] at ih
    rcases List.mem_cons.1 h with rfl | h
    · rw [← Piece.first?_append hfirst] at hfirst
      exact Piece.fits hfirst hk
    · exact ih h

/-- The text of the token is one that was described for its kind, if that was done. -/
def Token.IsFit (t : Token) : Prop :=
  t.kind ≠ .float → t.lexeme.Fits

theorem Scan.isFit {source : Text} {t : Token} (ht : t ∈ (Scan.ofText source).tokens) :
    t.IsFit := by
  intro hk
  obtain ⟨before, after, hps, -⟩ := of_mem_tokensFrom ht
  exact pieces_fit hk (hps ▸ List.mem_append_right _ List.mem_cons_self)

theorem ofWord_notMem (t : Text) : TokenKind.ofWord t ∉ [.int, .string, .includeFile, .scope] :=
  of_ofWord (p := fun k => k ∉ [.int, .string, .includeFile, .scope]) t (by simp)
    (by simp [TokenKind.keywords])

theorem Lexeme.Fits.isIdentifier {t : Text} (h : Fits ⟨.ident, t⟩) : IsIdentifier t := by
  generalize hk : TokenKind.ident = kind at h
  cases h with
  | word h => exact ⟨h, hk.symm⟩
  | mark h => simp [marks, ← hk] at h
  | _ => cases hk

theorem Lexeme.Fits.scope {t : Text} (h : Fits ⟨.scope, t⟩) : t = [':', ':'] := by
  generalize hk : TokenKind.scope = kind at h
  cases h with
  | word h => exact absurd (by simp [← hk]) (ofWord_notMem t)
  | mark h => simpa [marks, ← hk] using h
  | _ => cases hk

theorem Lexeme.Fits.includeFile {t : Text} (h : Fits ⟨.includeFile, t⟩) :
    ∃ a b s opening closing, IsInline a ∧ IsInline b ∧ b ≠ [] ∧ Within closing s ∧
      (opening, closing) ∈ [('<', '>'), ('"', '"')] ∧
      t = '#' :: a ++ "include".toList ++ b ++ opening :: s ++ [closing] := by
  generalize hk : TokenKind.includeFile = kind at h
  cases h with
  | word h => exact absurd (by simp [← hk]) (ofWord_notMem t)
  | mark h => simp [marks, ← hk] at h
  | @includeAngle a b s ha hb hne hs => exact ⟨a, b, s, '<', '>', ha, hb, hne, hs, by simp, rfl⟩
  | @includeQuote a b s ha hb hne hs => exact ⟨a, b, s, '"', '"', ha, hb, hne, hs, by simp, rfl⟩
  | _ => cases hk

theorem Lexeme.Fits.exists_inside {t : Text} (h : Fits ⟨.string, t⟩) :
    ∃ s, Inside s ∧ t = '"' :: s ++ ['"'] := by
  generalize hk : TokenKind.string = kind at h
  cases h with
  | word h => exact absurd (by simp [← hk]) (ofWord_notMem t)
  | mark h => simp [marks, ← hk] at h
  | @string s h => exact ⟨s, h, rfl⟩
  | _ => cases hk

theorem Lexeme.Fits.exists_digits {t : Text} (h : Fits ⟨.int, t⟩) :
    ∃ sign digits, IsSign sign ∧ digits ≠ [] ∧
      (t = sign ++ digits ∧ (∀ c ∈ digits, isDecimalDigit c) ∨
        ∃ x, (x = 'x' ∨ x = 'X') ∧ t = sign ++ '0' :: x :: digits ∧
          ∀ c ∈ digits, isHexDigit c) := by
  generalize hk : TokenKind.int = kind at h
  cases h with
  | word h => exact absurd (by simp [← hk]) (ofWord_notMem t)
  | mark h => simp [marks, ← hk] at h
  | @decimal sign digits hs hne hd => exact ⟨sign, digits, hs, hne, .inl ⟨rfl, hd⟩⟩
  | @hexadecimal sign digits x hs hx hne hd =>
    exact ⟨sign, digits, hs, hne, .inr ⟨x, hx, rfl, hd⟩⟩
  | _ => cases hk

def TokenKind.isQuoting : TokenKind → Bool
  | string | pragmaOnce | includeFile => true
  | _ => false

theorem avoids_of_mem_terminals (h : (.token k, p) ∈ terminals) (hk : k.isQuoting = false) :
    p.avoids := by
  have hall : ∀ t ∈ terminals, t.2.avoids ∨ t.1 ∈ [.layout .blanks, .layout .guardLine,
      .layout .lineComment, .layout .blockComment, .token .string, .token .pragmaOnce,
      .token .includeFile] := by
    decide
  refine (hall _ h).resolve_right fun hmem => ?_
  simp only [List.mem_cons, List.not_mem_nil, or_false, PieceKind.token.injEq, reduceCtorEq,
    false_or] at hmem
  rcases hmem with rfl | rfl | rfl <;> cases hk

theorem Lexeme.Inside.onLine {s : Text} (h : Inside s) : OnLine s := by
  induction h with
  | nil => simp [OnLine]
  | char hq hb hn _ ih => simpa [OnLine, hn] using ih
  | escape hn _ ih => simpa [OnLine, hn] using ih

theorem Lexeme.IsInline.onLine {a : Text} (h : IsInline a) : OnLine a := by
  rintro c hc rfl
  exact absurd (h '\n' hc) (by decide)

theorem Lexeme.Within.onLine {close : Char} {s : Text} (h : Within close s) : OnLine s :=
  fun c hc => (h c hc).2

theorem onLine_cons {c : Char} {t : Text} : OnLine (c :: t) ↔ c ≠ '\n' ∧ OnLine t := by
  simp [OnLine]

theorem onLine_append {s t : Text} : OnLine (s ++ t) ↔ OnLine s ∧ OnLine t := by
  simp [OnLine, or_imp, forall_and]

theorem onLine_concat {s : Text} {c : Char} (hs : OnLine s) (hc : c ∉ ['\n', '\r']) :
    OnLine (s ++ [c]) ∧ (s ++ [c]).getLast? ≠ some '\r' := by
  simp only [List.mem_cons, List.not_mem_nil, or_false, not_or] at hc
  rw [List.getLast?_concat]
  exact ⟨onLine_append.2 ⟨hs, onLine_cons.2 ⟨hc.1, by simp [OnLine]⟩⟩, by simpa using hc.2⟩

theorem onLine_string (h : Pattern.string.Takes l r) : OnLine l ∧ l.getLast? ≠ some '\r' := by
  obtain ⟨s, hs, rfl⟩ := h.string
  exact onLine_concat (onLine_cons.2 ⟨by decide, hs.onLine⟩) (by decide)

theorem onLine_pragmaOnce (h : Pattern.pragmaOnce.Takes l r) :
    OnLine l ∧ l.getLast? ≠ some '\r' := by
  obtain ⟨a, b, ha, hb, -, rfl⟩ := h.pragmaOnce
  have honce : "once".toList = "onc".toList ++ ['e'] := rfl
  rw [honce, ← List.append_assoc]
  refine onLine_concat ?_ (by decide)
  simp only [onLine_append, onLine_cons]
  exact ⟨⟨⟨⟨by decide, ha.onLine⟩, by simp [OnLine]⟩, hb.onLine⟩, by simp [OnLine]⟩

theorem onLine_includeFile (h : Pattern.includeFile.Takes l r) :
    OnLine l ∧ l.getLast? ≠ some '\r' := by
  obtain ⟨a, b, path, ha, hb, -, hpath, rfl⟩ := h.includeFile
  obtain ⟨s, c, rfl, hs, hc⟩ : ∃ s c, path = s ++ [c] ∧ OnLine s ∧ c ∉ ['\n', '\r'] := by
    rcases takes_includePath_iff.1 hpath with ⟨s, rfl, hs⟩ | ⟨s, rfl, hs⟩
    · exact ⟨_, _, rfl, onLine_cons.2 ⟨by decide, hs.onLine⟩, by decide⟩
    · exact ⟨_, _, rfl, onLine_cons.2 ⟨by decide, hs.onLine⟩, by decide⟩
  rw [← List.append_assoc]
  refine onLine_concat ?_ hc
  simp only [onLine_append, onLine_cons]
  exact ⟨⟨⟨⟨by decide, ha.onLine⟩, by simp [OnLine]⟩, hb.onLine⟩, hs⟩

theorem Piece.onLine (h : Piece.first? (l ++ r) = some (⟨.token k, l⟩, r)) :
    OnLine l ∧ l.getLast? ≠ some '\r' := by
  obtain ⟨⟨kind, p⟩, hmem, hp, hkind⟩ := first?_eq_some h
  replace hp : p.Takes l r := hp
  have havoids : p.avoids → OnLine l ∧ l.getLast? ≠ some '\r' := by
    intro ha
    have hnot := Takes.notMem ha hp
    refine ⟨?_, fun hlast => hnot '\r' (by decide) (List.mem_of_getLast? hlast)⟩
    rintro c hc rfl
    exact hnot '\n' (by decide) hc
  rcases PieceKind.refined_eq_token hkind with rfl | ⟨rfl, -⟩
  · cases hk : k.isQuoting with
    | false => exact havoids (avoids_of_mem_terminals hmem hk)
    | true =>
      match k, hk with
      | .string, _ =>
        obtain rfl : p = Pattern.string := by simpa [terminals] using hmem
        exact onLine_string hp
      | .pragmaOnce, _ =>
        obtain rfl : p = Pattern.pragmaOnce := by simpa [terminals] using hmem
        exact onLine_pragmaOnce hp
      | .includeFile, _ =>
        obtain rfl : p = Pattern.includeFile := by simpa [terminals] using hmem
        exact onLine_includeFile hp
  · exact havoids (avoids_of_mem_terminals hmem rfl)

end SliceIdl
