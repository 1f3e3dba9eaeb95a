import SliceIdl.Proofs.Document.Floats
import SliceIdl.Proofs.Document.RoundTrip
import SliceIdl.Proofs.Source.TokenTexts

/-!
# The includes of a document

A file can have include lines between its modules only, so the names that a document includes are
those that the include lines among the pieces of its text denote. Comments, guard lines and strings
are pieces of other kinds, whatever stands in them.
-/

set_option autoImplicit false

namespace SliceIdl
open Text Lexeme

variable {pos : Position} {ps : List Piece} {source : Text}

def Piece.includeLine? (p : Piece) : Option Text :=
  if p.kind = .token .includeFile then some p.text else none

def Token.includeLine? (t : Token) : Option Text :=
  if t.kind = .includeFile then some t.text else none

theorem includeLines_tokensFrom :
    (tokensFrom pos ps).filterMap Token.includeLine? = ps.filterMap Piece.includeLine? := by
  induction ps generalizing pos with
  | nil => rfl
  | cons p ps ih =>
    obtain ⟨kind, text⟩ := p
    rw [tokensFrom]
    cases kind with
    | layout k => rw [List.filterMap_cons_none rfl, ih]
    | token k =>
      rw [List.filterMap_cons, List.filterMap_cons, ih]
      simp [Token.includeLine?, Piece.includeLine?]

namespace Grammar

def Rule.derivesInclude : Rule → Bool
  | start | topItem | includeFile => true
  | _ => false

def Phrase.derivesInclude : Phrase → Bool
  | empty => false
  | tok kind => kind == .includeFile
  | ref rule => rule.derivesInclude
  | seq a b | alt a b => a.derivesInclude || b.derivesInclude
  | opt a | star a => a.derivesInclude

theorem rules_derivesInclude (r : Rule) (h : r.derivesInclude = false) :
    (rules r).derivesInclude = false := by
  cases r <;> first | rfl | cases h

theorem Phrase.Matches.ne_includeFile {e : Phrase} {ts : List Token} (h : e.Matches ts)
    (he : e.derivesInclude = false) : ∀ t ∈ ts, t.kind ≠ .includeFile := by
  induction h with
  | empty | none | nil => simp
  | tok hk =>
    rw [derivesInclude] at he
    simpa [hk] using he
  | ref _ ih => exact ih (rules_derivesInclude _ he)
  | seq _ _ iha ihb =>
    rw [derivesInclude, Bool.or_eq_false_iff] at he
    exact List.forall_mem_append.2 ⟨iha he.1, ihb he.2⟩
  | left _ ih =>
    rw [derivesInclude, Bool.or_eq_false_iff] at he
    exact ih he.1
  | right _ ih =>
    rw [derivesInclude, Bool.or_eq_false_iff] at he
    exact ih he.2
  | some _ ih => exact ih he
  | cons _ _ iha ihs => exact List.forall_mem_append.2 ⟨iha he, ihs he⟩

theorem Phrase.Matches.includeLines {e : Phrase} {ts : List Token} (h : e.Matches ts)
    (he : e.derivesInclude = false) : ts.filterMap Token.includeLine? = [] :=
  List.filterMap_eq_nil_iff.2 fun t ht => if_neg (h.ne_includeFile he t ht)

theorem Module.includeLines (m : Module) : m.tokens.filterMap Token.includeLine? = [] := by
  have hmatches : (Phrase.ref .moduleDef).Matches m.tokens :=
    (module_denotes (definition_denotes _) m.tokens (Nat.lt_succ_self _)).2 ⟨m, rfl⟩
  exact hmatches.includeLines rfl

theorem FileMetadata.includeLines (m : FileMetadata) :
    m.tokens.filterMap Token.includeLine? = [] := by
  have hmatches : (Phrase.ref .metadata).Matches m.inner.tokens :=
    (metadata_denotes m.inner.tokens (Nat.lt_succ_self _)).2 ⟨m.inner, rfl⟩
  rw [tokens, List.filterMap_append, List.filterMap_append, hmatches.includeLines rfl]
  rfl

theorem includeName_eq_ok {t : Tok .includeFile} {name : Text} :
    includeName t = .ok name ↔ includeName? (includeTarget t.text) = some name := by
  rw [includeName]
  cases includeName? (includeTarget t.text) with
  | none => simp [throw, throwThe, MonadExceptOf.throw]
  | some n => simp [pure, Except.pure]

end Grammar

theorem exists_trimmed (t : Text) : ∃ pre post, t = pre ++ trimmed t ++ post ∧
    (∀ c ∈ pre, isBlank c) ∧ (∀ c ∈ post, isBlank c) ∧ HeadNot isBlank (trimmed t) := by
  have hrest : t.dropWhile isBlank =
      trimmed t ++ ((t.dropWhile isBlank).reverse.takeWhile isBlank).reverse := by
    rw [trimmed, ← List.reverse_append, List.takeWhile_append_dropWhile, List.reverse_reverse]
  refine ⟨t.takeWhile isBlank, ((t.dropWhile isBlank).reverse.takeWhile isBlank).reverse, ?_,
    fun c hc => List.mem_takeWhile_imp hc, fun c hc => ?_, ?_⟩
  · rw [List.append_assoc, ← hrest, List.takeWhile_append_dropWhile]
  · exact List.mem_takeWhile_imp (List.mem_reverse.1 hc)
  · have hhead := headNot_dropWhile isBlank t
    rw [hrest] at hhead
    exact hhead.of_append

theorem includePath_of_includeName? {name t : Text}
    (h : Grammar.includeName? (trimmed t) = some name) : IncludePath name t := by
  obtain ⟨pre, post, ht, hpre, hpost, hhead⟩ := exists_trimmed t
  obtain ⟨m, hstem, rfl⟩ := Option.map_eq_some_iff.1 h
  obtain ⟨hne, htrimmed⟩ := stem?_eq_some_iff.1 hstem
  rw [htrimmed] at ht hhead
  rw [ht, ← List.append_assoc]
  exact .mk hpre hpost hne hhead.of_append

theorem includeText_of_includeName? {name line : Text} (hfits : Fits ⟨.includeFile, line⟩)
    (h : Grammar.includeName? (Grammar.includeTarget line) = some name) :
    IncludeText name line := by
  obtain ⟨a, b, s, opening, closing, ha, hb, hne, hin, hmem, rfl⟩ := hfits.includeFile
  simp only [List.mem_cons, Prod.mk.injEq, List.not_mem_nil, or_false] at hmem
  rcases hmem with ⟨rfl, rfl⟩ | ⟨rfl, rfl⟩
  · rw [includeTarget_eq ha hb (.inl rfl)] at h
    exact .angle ha hb hne hin (includePath_of_includeName? h)
  · rw [includeTarget_eq ha hb (.inr rfl)] at h
    exact .quote ha hb hne hin (includePath_of_includeName? h)

theorem IncludePath.name {name path : Text} (h : IncludePath name path) :
    name ≠ [] ∧ '\\' ∉ name := by
  obtain @⟨pre, m, post, -, -, hne, -⟩ := h
  refine ⟨by simpa using hne, fun hmem => ?_⟩
  obtain ⟨c, -, hc⟩ := List.mem_map.1 hmem
  rw [slashed] at hc
  split at hc
  · cases hc
  · next h => exact h hc

theorem IncludeText.name {name line : Text} (h : IncludeText name line) :
    name ≠ [] ∧ '\\' ∉ name := by
  cases h with
  | angle _ _ _ _ ht => exact ht.name
  | quote _ _ _ _ ht => exact ht.name

namespace Grammar

theorem includeNames_build {f : File} {es : List Entry} (hfit : ∀ t ∈ File.tokens f, t.IsFit)
    (h : f.mapM TopItem.build = .ok es) :
    List.Forall₂ IncludeText (es.filterMap Entry.includeName?)
      ((File.tokens f).filterMap Token.includeLine?) := by
  induction f generalizing es with
  | nil =>
    cases h
    exact .nil
  | cons item f ih =>
    rw [List.mapM_cons] at h
    simp only [build_bind_eq_ok, build_pure_eq_ok] at h
    obtain ⟨e, he, es, hes, rfl⟩ := h
    rw [File.tokens, List.flatMap_cons, ← File.tokens] at hfit
    obtain ⟨hitem, hfit⟩ := List.forall_mem_append.1 hfit
    have ih := ih hfit hes
    rw [File.tokens, List.flatMap_cons, List.filterMap_append, ← File.tokens]
    cases item with
    | pragmaOnce t =>
      obtain rfl := build_pure_eq_ok.1 he
      exact ih
    | includeFile t =>
      obtain ⟨name, hname, rfl⟩ := build_map_eq_ok.1 he
      have hline := hitem t.token List.mem_cons_self (by simp [Tok.token])
      exact .cons (includeText_of_includeName? hline (includeName_eq_ok.1 hname)) ih
    | metadata m =>
      obtain ⟨strings, -, rfl⟩ := build_map_eq_ok.1 he
      rw [TopItem.tokens, m.includeLines]
      exact ih
    | module m =>
      obtain ⟨d, -, rfl⟩ := build_map_eq_ok.1 he
      rw [TopItem.tokens, m.includeLines]
      exact ih

end Grammar

theorem nodup_eraseDups (ns : List Text) : ns.eraseDups.Nodup := by
  induction ns with
  | nil => exact List.nodup_nil
  | cons n ns ih =>
    rw [List.eraseDups_cons, eraseDups_filter]
    exact List.nodup_cons.2 ⟨by simp, ih.filter _⟩

/-- The document includes the names that the include lines of the text denote, each once and in the
order in which they stand there first. -/
theorem Document.includes_eq {d : Document} (h : Document.parse source = .ok d) :
    ∃ names, List.Forall₂ IncludeText names ((pieces source).1.filterMap Piece.includeLine?) ∧
      d.includes = names.eraseDups := by
  obtain ⟨f, hf, hd⟩ := Document.parse_eq_ok.1 h
  obtain ⟨es, hes, rfl⟩ := Grammar.build_map_eq_ok.1 hd
  have hfit : ∀ t ∈ Grammar.File.tokens f, t.IsFit := by
    rw [(parseFile_eq_ok.1 hf).2]
    exact fun t ht => Scan.isFit ht
  refine ⟨es.filterMap Grammar.Entry.includeName?, ?_, rfl⟩
  have hnames := Grammar.includeNames_build hfit hes
  rwa [(parseFile_eq_ok.1 hf).2, Scan.ofText, includeLines_tokensFrom] at hnames

end SliceIdl
