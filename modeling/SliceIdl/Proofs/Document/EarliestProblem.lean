import SliceIdl.Proofs.Grammar.Exactness
import SliceIdl.Proofs.Grammar.Viability
import SliceIdl.Proofs.Source.Joining

/-!
# The earliest problem is reported

An error of the grammar is found at the first token, or at the first character, from which on no
text could be accepted: what stands in front of it can be completed.
-/

set_option autoImplicit false

namespace SliceIdl

namespace Grammar

/-- The tokens are a proper part, from the front, of an accepted list. -/
def Viable (ts : List Token) : Prop :=
  ∃ more, more ≠ [] ∧ (Phrase.ref .start).Matches (ts ++ more)

/-- The tokens in front of the place where the parser stops can be completed, but not with the next
one of those that are there, nor with nothing if none is there. -/
theorem File.ofTokens_eq_error {ts rest : List Token} (h : File.ofTokens ts = .error rest) :
    ∃ before, ts = before ++ rest ∧ Viable before ∧
      ∀ us, nextKind us = nextKind rest → ¬(Phrase.ref .start).Matches (before ++ us) := by
  have hfile : Parser.file ts = .error rest := by
    rw [File.ofTokens] at h
    cases hp : Parser.file ts with
    | error e =>
      rw [hp] at h
      cases h
      rfl
    | ok r =>
      rw [hp] at h
      cases h
  obtain ⟨before, f, more, rfl, hmore, hf⟩ := Parser.file_predicts.viable hfile
  refine ⟨before, rfl, ⟨more, hmore, start_matches_iff.2 ⟨f, hf⟩⟩, fun us hus hmatches => ?_⟩
  obtain ⟨g, hg⟩ := start_matches_iff.1 hmatches
  have hrefused := Parser.file_predicts.refuses hfile hus
  have haccepted := File.ofTokens_eq_ok.2 hg
  rw [File.ofTokens, hrefused] at haccepted
  cases haccepted

end Grammar

open Grammar

theorem Scan.ofText_coveredText (t : Text) :
    (ofText (coveredText (pieces t).1)).stop = none ∧
      (ofText (coveredText (pieces t).1)).tokens = (ofText t).tokens := by
  have hcuts : CutsAt .start (coveredText (pieces t).1 ++ []) ((ofText t).tokens ++ []) :=
    cutsAt_coveredText Text.headNot_nil cutsAt_nil
  rw [List.append_nil, List.append_nil] at hcuts
  exact scan_eq_iff.2 hcuts

/-- What a report means. For tokens and characters in the way, it is the first place that rules out
all continuations; a rejection comes only after the whole text has been accepted. -/
def EarliestProblem (source : Text) : SyntaxError → Prop
  | .unexpectedToken t => ∃ before after, (Scan.ofText source).tokens = before ++ t :: after ∧
      Viable before ∧ ∀ more, ¬(Phrase.ref .start).Matches (before ++ t :: more)
  | .unexpectedEnd pos =>
      (Scan.ofText source).stop = none ∧ pos = endPosition (Scan.ofText source).tokens ∧
      Viable (Scan.ofText source).tokens ∧ ¬(Phrase.ref .start).Matches (Scan.ofText source).tokens
  | .unmatchedCharacter c pos => ∃ before after, source = before ++ c :: after ∧
      pos = Position.start.after before ∧ (∀ k ∈ terminals, k.2.split? (c :: after) = none) ∧
      (Scan.ofText before).stop = none ∧
      ∃ more, (Phrase.ref .start).Matches ((Scan.ofText before).tokens ++ more)
  | .rejected reason => ∃ f, parseFile source = .ok f ∧ File.build f = .error reason

theorem Scan.ofText_stop {t : Text} {c : Char} {pos : Position}
    (h : (ofText t).stop = some (c, pos)) :
    ∃ after, t = coveredText (pieces t).1 ++ c :: after ∧
      pos = Position.start.after (coveredText (pieces t).1) ∧
      ∀ k ∈ terminals, k.2.split? (c :: after) = none := by
  have happ := pieces_append t
  have hrest := Piece.first?_eq_none_iff.1 (first?_rest t)
  cases hr : (pieces t).2 with
  | nil => simp [ofText, hr] at h
  | cons d after =>
    obtain ⟨rfl, rfl⟩ : d = c ∧ Position.start.after (coveredText (pieces t).1) = pos := by
      simpa [ofText, hr] using h
    rw [hr] at happ hrest
    exact ⟨after, happ.symm, rfl, hrest⟩

theorem exists_matches {ts : List Token} (h : ∀ t rest, File.ofTokens ts ≠ .error (t :: rest)) :
    ∃ more, (Phrase.ref .start).Matches (ts ++ more) := by
  cases hf : File.ofTokens ts with
  | ok f => exact ⟨[], start_matches_iff.2 ⟨f, by simpa using File.ofTokens_eq_ok.1 hf⟩⟩
  | error rest =>
    cases rest with
    | cons t rest => exact absurd hf (h t rest)
    | nil =>
      obtain ⟨before, rfl, ⟨more, -, hmatches⟩, -⟩ := File.ofTokens_eq_error hf
      exact ⟨more, by simpa using hmatches⟩

theorem parseFile_earliest {source : Text} {e : SyntaxError} (h : parseFile source = .error e) :
    EarliestProblem source e := by
  rw [parseFile] at h
  split at h
  · next t after htokens =>
    cases h
    obtain ⟨before, hbefore, hviable, hrefused⟩ := File.ofTokens_eq_error htokens
    exact ⟨before, after, hbefore, hviable, fun more => hrefused (t :: more) rfl⟩
  · next c pos hstop hnone =>
    cases h
    obtain ⟨after, hsource, hpos, hterminals⟩ := Scan.ofText_stop hstop
    obtain ⟨hcomplete, htokens⟩ := Scan.ofText_coveredText source
    refine ⟨_, after, hsource, hpos, hterminals, hcomplete, ?_⟩
    rw [htokens]
    exact exists_matches hnone
  · next htokens hstop =>
    cases h
    obtain ⟨before, hbefore, hviable, hrefused⟩ := File.ofTokens_eq_error htokens
    rw [List.append_nil] at hbefore
    rw [← hbefore] at hviable hrefused
    exact ⟨hstop, rfl, hviable, by simpa using hrefused [] rfl⟩
  · cases h

/-- Whatever error a text has, it is the earliest one. -/
theorem Document.parse_earliest (source : Text) (e : SyntaxError)
    (h : Document.parse source = .error e) : EarliestProblem source e := by
  rw [Document.parse] at h
  cases hf : parseFile source with
  | error e' =>
    rw [hf] at h
    cases h
    exact parseFile_earliest hf
  | ok f =>
    rw [hf] at h
    cases hb : File.build f with
    | error r =>
      obtain rfl : .rejected r = e := by simpa [bind, Except.bind, hb, Except.mapError] using h
      exact ⟨f, hf, hb⟩
    | ok d => simp [bind, Except.bind, hb, Except.mapError] at h

/-- A brace in the place of a name, a module without an end, and a character of no token. -/
theorem Document.parse_earliest_module :
    (Document.parse "module M{struct S{int};};".toList =
        .error (.unexpectedToken ⟨.rightBrace, ['\x7d'], ⟨1, 22⟩⟩) ∧
      EarliestProblem "module M{struct S{int};};".toList
        (.unexpectedToken ⟨.rightBrace, ['\x7d'], ⟨1, 22⟩⟩)) ∧
    (Document.parse "module M\n\x7b".toList = .error (.unexpectedEnd ⟨2, 1⟩) ∧
      EarliestProblem "module M\n\x7b".toList (.unexpectedEnd ⟨2, 1⟩)) ∧
    Document.parse "module $".toList = .error (.unmatchedCharacter '$' ⟨1, 8⟩) ∧
      EarliestProblem "module $".toList (.unmatchedCharacter '$' ⟨1, 8⟩) := by
  have herror : ∀ {source : Text} {e : SyntaxError},
      (match Document.parse source with
        | .ok _ => none
        | .error e => some e) = some e → Document.parse source = .error e := by
    intro source e h
    split at h
    · cases h
    · next hparse => rw [hparse, Option.some.inj h]
  have htoken : Document.parse "module M{struct S{int};};".toList =
      .error (.unexpectedToken ⟨.rightBrace, ['\x7d'], ⟨1, 22⟩⟩) := herror (by decide +kernel)
  have hend : Document.parse "module M\n\x7b".toList = .error (.unexpectedEnd ⟨2, 1⟩) :=
    herror (by decide +kernel)
  have hcharacter : Document.parse "module $".toList = .error (.unmatchedCharacter '$' ⟨1, 8⟩) :=
    herror (by decide +kernel)
  exact ⟨⟨htoken, parse_earliest _ _ htoken⟩, ⟨hend, parse_earliest _ _ hend⟩, hcharacter,
    parse_earliest _ _ hcharacter⟩

end SliceIdl
