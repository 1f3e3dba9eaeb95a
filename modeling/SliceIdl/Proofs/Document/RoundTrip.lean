import SliceIdl.Proofs.Document.Definitions
import SliceIdl.Proofs.Document.Printing
import SliceIdl.Proofs.Grammar.Exactness
import SliceIdl.Proofs.Source.Lexing

/-!
# Written documents are parsed

Every text that is a spelling of a document is parsed as that document, up to positions.
-/

set_option autoImplicit false

namespace SliceIdl
open Grammar Lexeme

namespace Grammar.Entry

def unlocated : Entry → Entry
  | module m => module m.unlocated
  | e => e

def Readable : Entry → Prop
  | metadata ss => ss ≠ []
  | module m => m.WellFormed
  | _ => True

end Grammar.Entry

theorem reads_entry (e : Entry) (he : e.Readable) :
    Reads e.spelling TopItem.tokens (Builds TopItem.build Entry.unlocated e) := by
  cases e with
  | pragmaOnce =>
    exact (Reads.token _).of .pragmaOnce (fun _ => rfl) fun _ _ => ⟨.pragmaOnce, rfl, rfl⟩
  | includeName n =>
    refine (Reads.token _).of .includeFile (fun _ => rfl) fun t ht => ⟨.includeName n, ?_, rfl⟩
    rw [TopItem.build, IncludeText.includeName_eq ht]
    rfl
  | metadata ss =>
    obtain ⟨s, ss, rfl⟩ := List.exists_cons_of_ne_nil he
    refine ((Reads.mark.mul (reads_metadata s ss)).mul Reads.mark).of
      (fun x => .metadata ⟨x.1.1, x.1.2, x.2⟩) (fun _ => rfl) ?_
    rintro ⟨⟨left, inner⟩, right⟩ ⟨⟨-, hinner⟩, -⟩
    dsimp only at *
    refine ⟨.metadata (s :: ss), ?_, rfl⟩
    rw [TopItem.build, hinner]
    rfl
  | module m =>
    refine (reads_module m he).of .module (fun _ => rfl) ?_
    rintro x ⟨m', hm, hme⟩
    refine ⟨.module m', ?_, congrArg Entry.module hme⟩
    rw [TopItem.build, hm]
    rfl

theorem eraseDups_filter (p : Text → Bool) (ns : List Text) :
    (ns.filter p).eraseDups = ns.eraseDups.filter p := by
  induction hn : ns.length using Nat.strong_induction_on generalizing ns with
  | _ k ih =>
    cases ns with
    | nil => rfl
    | cons n ns =>
      have hlen : (ns.filter fun m => !m == n).length < k := by
        have := List.length_filter_le (fun m => !m == n) ns
        rw [List.length_cons] at hn
        omega
      have ih := ih _ hlen (ns.filter fun m => !m == n) rfl
      rw [List.eraseDups_cons]
      cases hp : p n with
      | true =>
        rw [List.filter_cons_of_pos hp, List.filter_cons_of_pos hp, List.eraseDups_cons, ← ih,
          List.filter_filter, List.filter_filter]
        simp only [Bool.and_comm]
      | false =>
        have hfilter : (ns.filter fun m => !m == n).filter p = ns.filter p := by
          rw [List.filter_filter]
          refine List.filter_congr fun m _ => ?_
          cases hm : m == n with
          | true => simp [eq_of_beq hm, hp]
          | false => simp
        rw [List.filter_cons_of_neg (by simp [hp]), List.filter_cons_of_neg (by simp [hp]), ← ih,
          hfilter]

/-- The document of the items is the one that they were arranged for. -/
theorem Document.Arranged.documentOf_eq {d : Document} {es : List Entry} (h : d.Arranged es) :
    documentOf es = d := by
  induction h with
  | nil => rfl
  | pragmaOnce _ ih =>
    subst ih
    rfl
  | includeName n _ ih =>
    subst ih
    have hincludes : ∀ ns : List Text,
        (n :: ns).eraseDups = n :: ns.eraseDups.filter (· ≠ n) := by
      intro ns
      rw [List.eraseDups_cons, eraseDups_filter]
      exact congrArg _ (List.filter_congr fun m _ => by simp [beq_eq_decide])
    exact congrArg (fun ns => Document.mk _ ns _ _) (hincludes _)
  | metadata _ _ ih =>
    subst ih
    rfl
  | module m _ ih =>
    subst ih
    rfl

theorem Document.Arranged.readable {d : Document} {es : List Entry} (h : d.Arranged es)
    (hd : ∀ m ∈ d.modules, m.WellFormed) : ∀ e ∈ es, e.Readable := by
  induction h with
  | nil => simp
  | pragmaOnce _ ih => simpa [Entry.Readable] using ih hd
  | includeName n _ ih => simpa [Entry.Readable] using ih hd
  | metadata hne _ ih => simpa [Entry.Readable, hne] using ih hd
  | module m _ ih =>
    rw [List.forall_mem_cons] at hd ⊢
    exact ⟨hd.1, ih hd.2⟩

theorem documentOf_unlocated (es : List Entry) :
    documentOf (es.map Entry.unlocated) = (documentOf es).unlocated := by
  have hpragma : Entry.isPragmaOnce ∘ Entry.unlocated = Entry.isPragmaOnce := by
    funext e
    cases e <;> rfl
  have hinclude : Entry.includeName? ∘ Entry.unlocated = Entry.includeName? := by
    funext e
    cases e <;> rfl
  have hstrings : (fun e : Entry => e.unlocated.strings) = Entry.strings := by
    funext e
    cases e <;> rfl
  have hmodule : Entry.module? ∘ Entry.unlocated =
      fun e => e.module?.map SliceIdl.Module.unlocated := by
    funext e
    cases e <;> rfl
  simp only [documentOf, Document.unlocated, List.any_map, List.filterMap_map, List.flatMap_map,
    List.map_filterMap, hpragma, hinclude, hstrings, hmodule]

theorem Document.Spelled.parse {d : Document} {text : Text} (h : d.Spelled text)
    (hd : d.WellFormed) : ∃ d', Document.parse text = .ok d' ∧ d'.unlocated = d.unlocated := by
  obtain ⟨ls, ⟨es, hes, hls⟩, hwritten⟩ := h
  obtain ⟨hstop, htokens⟩ := Scan.ofText_written hwritten
  have hreads := Reads.prod es fun e he => reads_entry e (hes.readable hd.modules e he)
  obtain ⟨f, hf, hbuilds⟩ := hreads (Scan.ofText text).tokens (htokens ▸ hls)
  obtain ⟨es', hes', herase⟩ := mapM_builds hbuilds
  refine ⟨documentOf es', Document.parse_eq_ok.2 ⟨f, parseFile_eq_ok.2 ⟨hstop, hf⟩, ?_⟩, ?_⟩
  · rw [File.build, hes']
    rfl
  · rw [← documentOf_unlocated, herase, documentOf_unlocated, hes.documentOf_eq]

/-- A well-formed document has a spelling, and every text that spells it is parsed as the same
document, up to positions. -/
theorem Document.parse_spelled (d : Document) (hd : d.WellFormed) :
    (∃ text, d.Spelled text) ∧
    ∀ text, d.Spelled text →
      ∃ d', Document.parse text = .ok d' ∧ d'.unlocated = d.unlocated :=
  ⟨hd.exists_spelled, fun _ h => h.parse hd⟩

def enumDocument : Document :=
  ⟨false, [], [],
    [.mk ['M'] .start [.enum ⟨['E'], .start, [⟨['A'], .start, some 31⟩], false, []⟩] []]⟩

theorem isIdentifier_letter {c : Char} (hc : Pattern.isIdentStart c)
    (hw : TokenKind.ofWord [c] = .ident) : IsIdentifier [c] :=
  ⟨⟨c, [], rfl, hc, by simp⟩, hw⟩

theorem Lexeme.IsIdentifier.isScopedName {n : Text} (h : IsIdentifier n) : IsScopedName n :=
  ⟨[n], by simp, by simpa using h, .inl rfl⟩

open Spelling in
theorem Lexeme.IsIdentifier.mem_scopedName {n : Text} (h : IsIdentifier n) :
    ([⟨.ident, n⟩] : List Lexeme) ∈ scopedName n := by
  have hlead : ([] : List Lexeme) ∈ 1 + mark .scope := .inl rfl
  have hfirst : [⟨.ident, n⟩] ∈ token .ident IsIdentifier := ⟨n, h, rfl⟩
  exact ⟨Language.append_mem_mul (Language.append_mem_mul hlead hfirst)
    (Language.nil_mem_kstar _), by simp⟩

theorem enumDocument_wellFormed : enumDocument.WellFormed := by
  have hM : IsIdentifier ['M'] := isIdentifier_letter rfl rfl
  have hA : IsIdentifier ['A'] := isIdentifier_letter rfl rfl
  refine ⟨List.nodup_nil, by simp [enumDocument], fun m hm => ?_⟩
  obtain rfl := List.mem_singleton.1 hm
  exact ⟨hM.isScopedName,
    ⟨isIdentifier_letter rfl rfl, by simp, by simpa using hA⟩, trivial⟩

/-- The value in hexadecimal with a sign, a comma behind the enumerator, and a semicolon behind one
of the braces only. -/
def enumLexemes : List Lexeme :=
  [⟨.kwModule, "module".toList⟩, ⟨.ident, ['M']⟩, ⟨.leftBrace, ['\x7b']⟩,
    ⟨.kwEnum, "enum".toList⟩, ⟨.ident, ['E']⟩, ⟨.leftBrace, ['\x7b']⟩, ⟨.ident, ['A']⟩,
    ⟨.equal, ['=']⟩, ⟨.int, "+0X1f".toList⟩, ⟨.comma, [',']⟩, ⟨.rightBrace, ['\x7d']⟩,
    ⟨.semicolon, [';']⟩, ⟨.rightBrace, ['\x7d']⟩]

theorem intText_enum : Literal.IntText 31 "+0X1f".toList :=
  .hexadecimal (.inr (.inl rfl)) (.inr rfl) (.snoc (d := 15) (.digit (d := 1) rfl) rfl)

theorem enumLexemes_fits : ∀ x ∈ enumLexemes, x.Fits := by
  have hword : ∀ c cs, Pattern.isIdentStart c → cs.all Pattern.isIdentRest →
      Fits ⟨.ofWord (c :: cs), c :: cs⟩ := fun c cs hc hcs =>
    .word ⟨c, cs, rfl, hc, by simpa using hcs⟩
  simp only [enumLexemes, List.forall_mem_cons]
  exact ⟨hword 'm' "odule".toList rfl rfl, hword 'M' [] rfl rfl, .mark (by decide),
    hword 'e' "num".toList rfl rfl, hword 'E' [] rfl rfl, .mark (by decide), hword 'A' [] rfl rfl,
    .mark (by decide), intText_enum.fits, .mark (by decide), .mark (by decide), .mark (by decide),
    .mark (by decide), by simp⟩

open Spelling in
theorem enumLexemes_mem : enumLexemes ∈ enumDocument.spelling := by
  have nil : ([] : List Lexeme) ∈ (1 : Spellings) := rfl
  have tok : ∀ {kind : TokenKind} {p : Text → Prop} (t : Text), p t →
      ([⟨kind, t⟩] : List Lexeme) ∈ token kind p := fun t h => ⟨t, h, rfl⟩
  have name : ∀ n : Text, ([⟨.ident, n⟩] : List Lexeme) ∈ ident n := fun n => tok n rfl
  have hmodule : [⟨.kwModule, "module".toList⟩] ∈ keyword .kwModule := ⟨_, by decide, rfl⟩
  have hkwEnum : [⟨.kwEnum, "enum".toList⟩] ∈ keyword .kwEnum := ⟨_, by decide, rfl⟩
  have hleft : [⟨.leftBrace, ['\x7b']⟩] ∈ mark .leftBrace := ⟨_, by decide, rfl⟩
  have hright : [⟨.rightBrace, ['\x7d']⟩] ∈ mark .rightBrace := ⟨_, by decide, rfl⟩
  have hequal : [⟨.equal, ['=']⟩] ∈ mark .equal := ⟨_, by decide, rfl⟩
  have hcomma : [⟨.comma, [',']⟩] ∈ 1 + mark .comma := .inr ⟨_, by decide, rfl⟩
  have hsemicolon : [⟨.semicolon, [';']⟩] ∈ 1 + mark .semicolon := .inr ⟨_, by decide, rfl⟩
  have hitems : [⟨.ident, ['A']⟩, ⟨.equal, ['=']⟩, ⟨.int, "+0X1f".toList⟩, ⟨.comma, [',']⟩] ∈
      listed [Enumerator.spelling ⟨['A'], .start, some 31⟩] * (1 + mark .comma) := by
    have hvalue : [⟨.equal, ['=']⟩, ⟨.int, "+0X1f".toList⟩] ∈
        (some (31 : Int)).elim 1 fun n => mark .equal * int n :=
      Language.append_mem_mul hequal (tok _ intText_enum)
    exact Language.append_mem_mul
      (Language.append_mem_mul (Language.append_mem_mul (name ['A']) hvalue) nil) hcomma
  have henum : [⟨.kwEnum, "enum".toList⟩, ⟨.ident, ['E']⟩, ⟨.leftBrace, ['\x7b']⟩, ⟨.ident, ['A']⟩,
      ⟨.equal, ['=']⟩, ⟨.int, "+0X1f".toList⟩, ⟨.comma, [',']⟩, ⟨.rightBrace, ['\x7d']⟩,
      ⟨.semicolon, [';']⟩] ∈
      Enum.spelling ⟨['E'], .start, [⟨['A'], .start, some 31⟩], false, []⟩ := by
    have hbody := Language.append_mem_mul (Language.append_mem_mul
      (Language.append_mem_mul hleft hitems) hright) hsemicolon
    have hmodifiers : ([] : List Lexeme) ∈ modifiers [] false := Language.append_mem_mul nil nil
    exact Language.append_mem_mul (Language.append_mem_mul
      (Language.append_mem_mul hmodifiers hkwEnum) (name ['E'])) hbody
  have hM : ([⟨.ident, ['M']⟩] : List Lexeme) ∈ scopedName ['M'] :=
    IsIdentifier.mem_scopedName (isIdentifier_letter rfl rfl)
  have hnone : ([] : List Lexeme) ∈ 1 + mark .semicolon := .inl nil
  have hbody := Language.append_mem_mul (Language.append_mem_mul
    (Language.append_mem_mul hleft (Language.append_mem_mul henum nil)) hright) hnone
  have hfile := Language.append_mem_mul (Language.append_mem_mul (Language.append_mem_mul
    (Language.append_mem_mul nil hmodule) hM) hbody) nil
  exact ⟨[.module _], .module _ .nil, hfile⟩

/-- The text has a blank in front of every token. -/
theorem Document.parse_spelled_enum :
    enumDocument.WellFormed ∧
    enumDocument.Spelled " module M { enum E { A = +0X1f , } ; }".toList ∧
    ∃ d, Document.parse " module M { enum E { A = +0X1f , } ; }".toList = .ok d ∧
      d.unlocated = enumDocument.unlocated := by
  have hspelled : enumDocument.Spelled " module M { enum E { A = +0X1f , } ; }".toList :=
    ⟨enumLexemes, enumLexemes_mem, written_of_fits enumLexemes_fits⟩
  exact ⟨enumDocument_wellFormed, hspelled,
    (Document.parse_spelled enumDocument enumDocument_wellFormed).2 _ hspelled⟩

end SliceIdl
