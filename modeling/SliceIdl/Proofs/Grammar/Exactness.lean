import SliceIdl.Document.Parse
import SliceIdl.Proofs.Grammar.Completeness
import SliceIdl.Proofs.Grammar.Derivation
import SliceIdl.Proofs.Grammar.Soundness

/-!
# The parser accepts the grammar

A list of tokens is accepted if and only if the rules derive it. It then has one tree, which is the
one that is read; so it has one meaning, and that is the document that is built.
-/

set_option autoImplicit false

namespace SliceIdl

namespace Grammar

theorem Parser.file_rest {ts rest : List Token} {f : File} (h : file ts = .ok (f, rest)) :
    rest = [] := by
  -- An item takes at least one token, so what is left behind the last one is nothing.
  have htakes : ∀ ⦃ts item rest⦄, topItem ts = .ok (item, rest) → rest.length < ts.length := by
    intro ts item rest hitem
    have hstart := (startsWith_topItem [] item).1
    rw [topItem_sound hitem, List.length_append]
    cases hts : item.tokens with
    | nil => simp [hts] at hstart
    | cons t ts => simp
  have hstops := repeatAtMost_stops htakes h (Nat.le_refl _)
  cases rest with
  | nil => rfl
  | cons t rest => cases hstops

/-- A list of tokens is read as a file just if it is the list of the tokens of that file. -/
theorem File.ofTokens_eq_ok {ts : List Token} {f : File} :
    File.ofTokens ts = .ok f ↔ File.tokens f = ts := by
  constructor
  · intro h
    rw [File.ofTokens] at h
    cases hp : Parser.file ts with
    | error e => simp [hp, Except.map] at h
    | ok r =>
      obtain ⟨f', rest⟩ := r
      rw [hp, Parser.ok_map, Except.ok.injEq] at h
      obtain rfl : f' = f := h
      rw [Parser.file_sound hp, Parser.file_rest hp, List.append_nil]
  · rintro rfl
    rw [File.ofTokens, Parser.file_tokens, Parser.ok_map]

theorem File.tokens_injective {f f' : File} (h : File.tokens f = File.tokens f') : f = f' :=
  Except.ok.inj ((ofTokens_eq_ok.2 rfl).symm.trans (ofTokens_eq_ok.2 h.symm))

end Grammar

theorem parseFile_eq_ok {source : Text} {f : Grammar.File} :
    parseFile source = .ok f ↔ (Scan.ofText source).stop = none ∧
      Grammar.File.tokens f = (Scan.ofText source).tokens := by
  rw [← Grammar.File.ofTokens_eq_ok, parseFile]
  cases (Scan.ofText source).stop with
  | some stop =>
    rcases Grammar.File.ofTokens (Scan.ofText source).tokens with ⟨_ | ⟨t, ts⟩⟩ | f' <;> simp
  | none =>
    rcases Grammar.File.ofTokens (Scan.ofText source).tokens with ⟨_ | ⟨t, ts⟩⟩ | f' <;> simp

theorem Document.parse_eq_ok {source : Text} {d : Document} :
    Document.parse source = .ok d ↔
      ∃ f, parseFile source = .ok f ∧ Grammar.File.build f = .ok d := by
  rw [Document.parse]
  cases parseFile source with
  | error e => simp [bind, Except.bind]
  | ok f =>
    show (Grammar.File.build f).mapError SyntaxError.rejected = .ok d ↔ _
    cases hb : Grammar.File.build f with
    | error e =>
      constructor
      · intro h
        cases h
      · rintro ⟨f', hf, hd⟩
        cases hf
        simp [hb] at hd
    | ok d' =>
      constructor
      · intro h
        cases h
        exact ⟨f, rfl, hb⟩
      · rintro ⟨f', hf, hd⟩
        cases hf
        rw [hb] at hd
        cases hd
        rfl

open Grammar in
/-- The parser accepts just the lists of tokens that the rules derive. Such a list has one tree, so
all its trees have the same document. A text has the tree of its tokens, and it is parsed as the
document of that tree unless a rule on trees is broken. -/
theorem Grammar.ofTokens_exact :
    (∀ ts, (∃ f, File.ofTokens ts = .ok f) ↔ (Phrase.ref .start).Matches ts) ∧
    (∀ ts, (Phrase.ref .start).Matches ts ↔ ∃ f, File.tokens f = ts) ∧
    (∀ f f', File.tokens f = File.tokens f' → f = f' ∧ File.build f = File.build f') ∧
    ∀ source f, (parseFile source = .ok f ↔ (Scan.ofText source).stop = none ∧
        File.tokens f = (Scan.ofText source).tokens) ∧
      ∀ d, parseFile source = .ok f → (Document.parse source = .ok d ↔ File.build f = .ok d) := by
  refine ⟨fun ts => ?_, fun ts => start_matches_iff, fun f f' h => ?_,
    fun source f => ⟨parseFile_eq_ok, fun d hf => ?_⟩⟩
  · rw [start_matches_iff]
    exact exists_congr fun f => File.ofTokens_eq_ok
  · obtain rfl := File.tokens_injective h
    exact ⟨rfl, rfl⟩
  · rw [Document.parse_eq_ok]
    constructor
    · rintro ⟨f', hf', hb⟩
      obtain rfl : f = f' := Except.ok.inj (hf.symm.trans hf')
      exact hb
    · intro hb
      exact ⟨f, hf, hb⟩

open Grammar in
/-- An enumeration with a trailing comma in a module is derived, and parsed as what it says. -/
theorem Grammar.ofTokens_exact_enum : ∃ f d,
    (Phrase.ref .start).Matches (File.tokens f) ∧
    parseFile "module M { enum E { A, }; };".toList = .ok f ∧
    Document.parse "module M { enum E { A, }; };".toList = .ok d ∧
    d.modules.map SliceIdl.Module.name = [['M']] := by
  obtain ⟨-, hderives, -, hparse⟩ := ofTokens_exact
  have hnames : (parseFile "module M { enum E { A, }; };".toList).toOption.bind (fun f =>
      (File.build f).toOption.map fun d => d.modules.map SliceIdl.Module.name) =
      some [['M']] := by decide +kernel
  cases hf : parseFile "module M { enum E { A, }; };".toList with
  | error e =>
    rw [hf] at hnames
    cases hnames
  | ok f =>
    rw [hf] at hnames
    cases hd : File.build f with
    | error e => simp [hd, Except.toOption] at hnames
    | ok d =>
      refine ⟨f, d, (hderives _).2 ⟨f, rfl⟩, rfl, ((hparse _ f).2 d hf).2 hd, ?_⟩
      simpa [hd, Except.toOption] using hnames

end SliceIdl
