import SliceIdl.Proofs.Document.Relocation
import SliceIdl.Proofs.Grammar.Exactness
import SliceIdl.Proofs.Source.Loosening

/-!
# Layout does not matter

A document depends on the tokens of its text alone, and but for positions on nothing of them except
their kinds and texts. Gaps around tokens change neither.
-/

set_option autoImplicit false

namespace SliceIdl

namespace Grammar

variable {e : Phrase} {ts us : List Token}

theorem Phrase.Matches.of_kinds (h : e.Matches ts) (hk : us.map Token.kind = ts.map Token.kind) :
    e.Matches us := by
  induction h generalizing us with
  | empty =>
    rw [List.map_eq_nil_iff.1 hk]
    exact .empty
  | tok ht =>
    obtain ⟨u, rfl, hu⟩ := List.map_eq_singleton_iff.1 hk
    exact .tok (hu.trans ht)
  | ref _ ih => exact .ref (ih hk)
  | seq _ _ iha ihb =>
    rw [List.map_append] at hk
    obtain ⟨xs, ys, rfl, hx, hy⟩ := List.map_eq_append_iff.1 hk
    exact .seq (iha hx) (ihb hy)
  | left _ ih => exact .left (ih hk)
  | right _ ih => exact .right (ih hk)
  | none =>
    rw [List.map_eq_nil_iff.1 hk]
    exact .none
  | some _ ih => exact .some (ih hk)
  | nil =>
    rw [List.map_eq_nil_iff.1 hk]
    exact .nil
  | cons _ _ iha ihs =>
    rw [List.map_append] at hk
    obtain ⟨xs, ys, rfl, hx, hy⟩ := List.map_eq_append_iff.1 hk
    exact .cons (iha hx) (ihs hy)

theorem map_of_lexemes {α : Type} {f : Token → α} {g : Lexeme → α} (hf : ∀ t, f t = g t.lexeme)
    (h : us.map Token.lexeme = ts.map Token.lexeme) : us.map f = ts.map f := by
  have hmap : ∀ ts : List Token, ts.map f = (ts.map Token.lexeme).map g := by simp [hf]
  rw [hmap, hmap, h]

theorem kinds_of_lexemes (h : us.map Token.lexeme = ts.map Token.lexeme) :
    us.map Token.kind = ts.map Token.kind :=
  map_of_lexemes (g := Lexeme.kind) (fun _ => rfl) h

/-- Files of tokens with the same kinds and texts have the same document but for positions. -/
theorem File.build_of_lexemes {f f' : File} {d : Document} (hd : File.build f = .ok d)
    (h : (File.tokens f').map Token.lexeme = (File.tokens f).map Token.lexeme) :
    ∃ d', File.build f' = .ok d' ∧ d'.unlocated = d.unlocated := by
  have hfile : File.relocate (fun _ => .start) f' = File.relocate (fun _ => .start) f := by
    apply File.tokens_injective
    rw [File.tokens_relocate, File.tokens_relocate]
    exact map_of_lexemes (g := fun l => ⟨l.kind, l.text, .start⟩) (fun _ => rfl) h
  have hbuild := File.build_relocate (fun _ => .start) f'
  rw [hfile, File.build_relocate, hd] at hbuild
  cases hd' : File.build f' with
  | error r =>
    rw [hd'] at hbuild
    cases hbuild
  | ok d' =>
    rw [hd'] at hbuild
    refine ⟨d', rfl, ?_⟩
    rw [← Document.relocate_start, ← Document.relocate_start]
    exact (Except.ok.inj hbuild).symm

end Grammar

open Grammar

variable {s t : Text}

def SameLexemes (s t : Text) : Prop :=
  (Scan.ofText s).stop = none ∧ (Scan.ofText t).stop = none ∧
    (Scan.ofText t).tokens.map Token.lexeme = (Scan.ofText s).tokens.map Token.lexeme

theorem SameLexemes.symm (h : SameLexemes s t) : SameLexemes t s :=
  ⟨h.2.1, h.1, h.2.2.symm⟩

theorem Document.parse_of_sameLexemes {d : Document} (h : SameLexemes s t)
    (hd : Document.parse s = .ok d) :
    ∃ d', Document.parse t = .ok d' ∧ d'.unlocated = d.unlocated := by
  obtain ⟨hs, ht, hlexemes⟩ := h
  obtain ⟨f, hf, hbuild⟩ := parse_eq_ok.1 hd
  have hmatches := start_matches_iff.2 ⟨f, (parseFile_eq_ok.1 hf).2⟩
  obtain ⟨f', hf'⟩ := start_matches_iff.1 (hmatches.of_kinds (kinds_of_lexemes hlexemes))
  have htokens : (File.tokens f').map Token.lexeme = (File.tokens f).map Token.lexeme := by
    rw [hf', hlexemes, (parseFile_eq_ok.1 hf).2]
  obtain ⟨d', hd', hunlocated⟩ := File.build_of_lexemes hbuild htokens
  exact ⟨d', parse_eq_ok.2 ⟨f', parseFile_eq_ok.2 ⟨ht, hf'⟩, hd'⟩, hunlocated⟩

theorem Loosened.sameLexemes (hs : (Scan.ofText s).stop = none) (h : Loosened (pieces s).1 t) :
    SameLexemes s t := by
  have hrest : (pieces s).2 = [] := by simpa [Scan.ofText] using hs
  obtain ⟨hrest', hlexemes⟩ := h.cuts hrest
  refine ⟨hs, by simp [Scan.ofText, hrest'], ?_⟩
  show (tokensFrom .start (pieces t).1).map Token.lexeme = (tokensFrom .start _).map Token.lexeme
  rw [lexeme_tokensFrom, lexeme_tokensFrom, hlexemes]

/-- Blanks, complete comments and complete guard lines can be put in front of tokens and behind
them. The text is accepted as before, and its document differs in positions only. -/
theorem Document.parse_loosened (s t : Text) (hs : (Scan.ofText s).stop = none)
    (h : Loosened (pieces s).1 t) :
    ((∃ d, Document.parse t = .ok d) ↔ ∃ d, Document.parse s = .ok d) ∧
    ∀ d d', Document.parse s = .ok d → Document.parse t = .ok d' → d'.unlocated = d.unlocated := by
  have hsame := h.sameLexemes hs
  refine ⟨⟨?_, ?_⟩, fun d d' hd hd' => ?_⟩
  · rintro ⟨d, hd⟩
    obtain ⟨d', hd', -⟩ := parse_of_sameLexemes hsame.symm hd
    exact ⟨d', hd'⟩
  · rintro ⟨d, hd⟩
    obtain ⟨d', hd', -⟩ := parse_of_sameLexemes hsame hd
    exact ⟨d', hd'⟩
  · obtain ⟨d'', hd'', hunlocated⟩ := parse_of_sameLexemes hsame hd
    obtain rfl := Except.ok.inj (hd'.symm.trans hd'')
    exact hunlocated

open Lexeme in
/-- A block comment in front of the first token, a line comment behind it, and a guard line in the
middle of a line. -/
theorem Document.parse_loosened_module :
    (Scan.ofText "module M{};".toList).stop = none ∧
    Loosened (pieces "module M{};".toList).1
      "/*a*/module//b\n M#if c\n{} ;".toList ∧
    ∃ d d', Document.parse "module M{};".toList = .ok d ∧
      Document.parse "/*a*/module//b\n M#if c\n{} ;".toList = .ok d' ∧
      d'.unlocated = d.unlocated := by
  have hs : (Scan.ofText "module M{};".toList).stop = none := by decide +kernel
  have hpieces : (pieces "module M{};".toList).1 =
      [⟨.token .kwModule, "module".toList⟩, ⟨.layout .blanks, [' ']⟩, ⟨.token .ident, ['M']⟩,
        ⟨.token .leftBrace, ['\x7b']⟩, ⟨.token .rightBrace, ['\x7d']⟩,
        ⟨.token .semicolon, [';']⟩] := by
    decide +kernel
  have hfirst : ∀ a b, ['a'] ++ ['*'] ≠ a ++ '*' :: '/' :: b := by
    intro a b h
    rcases a with _ | ⟨c, _ | ⟨d, a⟩⟩ <;> simp at h
  have hblock : Gap "/*a*/".toList := .blockComment hfirst .nil
  have hline : Gap "//b\n".toList := .lineComment (t := ['b']) (by simp [OnLine]) .nil
  have hguard : Gap "#if c\n".toList :=
    .guardLine (a := []) (w := "if".toList) (t := [' ', 'c']) (by simp [IsInline])
      (by simp [guardWords]) rfl (by simp [OnLine]) .nil
  have hloosened : Loosened (pieces "module M{};".toList).1
      "/*a*/module//b\n M#if c\n{} ;".toList := by
    rw [hpieces]
    exact .token hblock hline (.layout (.token .nil hguard (.token .nil .nil
      (.token .nil (.space rfl .nil) (.token .nil .nil .nil)))))
  have haccepted : (Document.parse "module M{};".toList).toOption.isSome := by decide +kernel
  cases hd : Document.parse "module M{};".toList with
  | error e =>
    rw [hd] at haccepted
    cases haccepted
  | ok d =>
    obtain ⟨haccepts, hunlocated⟩ := parse_loosened _ _ hs hloosened
    obtain ⟨d', hd'⟩ := haccepts.2 ⟨d, hd⟩
    exact ⟨hs, hloosened, d, d', rfl, hd', hunlocated d d' hd hd'⟩

end SliceIdl
