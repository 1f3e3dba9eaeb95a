import SliceIdl.Proofs.Document.Spelling
import SliceIdl.Proofs.Json.Printing

/-!
# Every well-formed document can be written

A spelling is printable if some list of it consists of real tokens. The spelling of each part of a
well-formed document is; with a blank in front of every token that gives a text.
-/

set_option autoImplicit false

namespace SliceIdl
open Text Lexeme
open scoped Computability

def Printable (l : Spellings) : Prop :=
  ∃ ls ∈ l, ∀ x ∈ ls, x.Fits

variable {δ : Type} {kind : TokenKind} {l m : Spellings} {t : Text}

namespace Printable

theorem one : Printable 1 :=
  ⟨[], rfl, by simp⟩

theorem mul (hl : Printable l) (hm : Printable m) : Printable (l * m) := by
  obtain ⟨a, ha, hfa⟩ := hl
  obtain ⟨b, hb, hfb⟩ := hm
  refine ⟨a ++ b, Language.append_mem_mul ha hb, fun x hx => ?_⟩
  rcases List.mem_append.1 hx with hx | hx
  · exact hfa x hx
  · exact hfb x hx

theorem maybe : Printable (1 + l) :=
  ⟨[], .inl rfl, by simp⟩

theorem flag (b : Bool) (h : Printable l) : Printable (Spelling.flag b l) := by
  cases b
  · exact one
  · exact h

theorem elim {r : δ → Spellings} (o : Option δ) (h : ∀ d ∈ o, Printable (r d)) :
    Printable (o.elim 1 r) := by
  cases o with
  | none => exact one
  | some d => exact h d rfl

theorem prod {ls : List Spellings} (h : ∀ l ∈ ls, Printable l) : Printable ls.prod := by
  induction ls with
  | nil => exact one
  | cons l ls ih =>
    rw [List.forall_mem_cons] at h
    exact h.1.mul (ih h.2)

theorem prod_map {r : δ → Spellings} {ds : List δ} (h : ∀ d ∈ ds, Printable (r d)) :
    Printable (ds.map r).prod :=
  prod (List.forall_mem_map.2 h)

theorem token {p : Text → Prop} (ht : p t) (hf : Fits ⟨kind, t⟩) :
    Printable (Spelling.token kind p) :=
  ⟨[⟨kind, t⟩], ⟨t, ht, rfl⟩, by simpa using hf⟩

theorem mark (h : marks.any (·.1 == kind) = true) : Printable (Spelling.mark kind) := by
  obtain ⟨⟨k, t⟩, ht, hk⟩ := List.any_eq_true.1 h
  obtain rfl := eq_of_beq hk
  exact token ht (.mark ht)

theorem keyword (h : TokenKind.keywords.any (·.2 == kind) = true) :
    Printable (Spelling.keyword kind) := by
  have hwords : ∀ k ∈ TokenKind.keywords, TokenKind.ofWord k.1 = k.2 ∧
      k.1.head?.any Pattern.isIdentStart ∧ k.1.tail.all Pattern.isIdentRest := by decide
  obtain ⟨⟨t, k⟩, ht, hk⟩ := List.any_eq_true.1 h
  obtain rfl := eq_of_beq hk
  obtain ⟨hkind, hhead, htail⟩ := hwords _ ht
  cases t with
  | nil => simp at hhead
  | cons c cs =>
    have hword : IsWord (c :: cs) := ⟨c, cs, rfl, by simpa using hhead, by simpa using htail⟩
    exact token ht (hkind ▸ .word hword)

theorem fits_ident (h : IsIdentifier t) : Fits ⟨.ident, t⟩ :=
  h.2 ▸ .word h.1

theorem ident (h : IsIdentifier t) : Printable (Spelling.ident t) :=
  token rfl (fits_ident h)

theorem listed {r : δ → Spellings} {ds : List δ} (h : ∀ d ∈ ds, Printable (r d)) :
    Printable (Spelling.listed (ds.map r)) := by
  cases ds with
  | nil => exact one
  | cons d ds =>
    rw [List.forall_mem_cons] at h
    rw [List.map_cons, Spelling.listed, List.map_map]
    exact h.1.mul (prod_map fun d hd => mul (mark rfl) (h.2 d hd))

theorem exists_numeral (n : Nat) : ∃ t, Numeral hexValue? 16 n t := by
  induction n using Nat.strong_induction_on with
  | _ n ih =>
    by_cases hn : n < 16
    · exact ⟨_, .digit (Json.hexValue?_hexDigit _ hn)⟩
    · obtain ⟨t, ht⟩ := ih (n / 16) (by omega)
      have hsnoc := Numeral.snoc ht (Json.hexValue?_hexDigit _ (Nat.mod_lt n (by decide)))
      rw [Nat.div_add_mod'] at hsnoc
      exact ⟨_, hsnoc⟩

theorem int (n : Int) : Printable (Spelling.int n) := by
  obtain ⟨t, ht⟩ := exists_numeral n.natAbs
  have htext : ∃ u, Literal.IntText n u := by
    by_cases hn : 0 ≤ n
    · have := Literal.IntText.hexadecimal (.inl rfl) (.inl rfl) ht
      rw [Literal.withSign, if_neg (by simp), Int.natAbs_of_nonneg hn] at this
      exact ⟨_, this⟩
    · have := Literal.IntText.hexadecimal (.inr (.inr rfl)) (.inl rfl) ht
      rw [Literal.withSign, if_pos rfl, Int.ofNat_natAbs_of_nonpos (by omega), Int.neg_neg] at this
      exact ⟨_, this⟩
  obtain ⟨u, hu⟩ := htext
  exact token hu hu.fits

theorem exists_stringText (s : Literal) :
    ∃ t, Literal.StringText s t ∧ HeadNot isHexDigit t := by
  induction s with
  | nil => exact ⟨[], .nil, headNot_nil⟩
  | cons p s ih =>
    obtain ⟨t, ht, hend⟩ := ih
    obtain ⟨digits, hdigits⟩ := exists_numeral p
    exact ⟨_, .hexadecimal hdigits hend ht, headNot_cons.2 rfl⟩

theorem string (s : Literal) : Printable (Spelling.string s) := by
  obtain ⟨t, ht, -⟩ := exists_stringText s
  exact token ⟨t, ht, rfl⟩ (.string ht.inside)

theorem bracketed (ss : List Literal) : Printable (Spelling.bracketed ss) := by
  cases ss with
  | nil => exact one
  | cons s ss => exact (mul (mark rfl) (listed fun s' _ => string s')).mul (mark rfl)

theorem includeText {n : Text} (h : CanBeIncluded n) :
    Printable (Spelling.token .includeFile (IncludeText n)) := by
  have hmap : n.map slashed = n := by
    conv_rhs => rw [← List.map_id n]
    exact List.map_congr_left fun c hc => if_neg (h.chars c hc).1
  have hpath : IncludePath n (n ++ sourceExtension) := by
    have hnil : ∀ c ∈ ([] : Text), isBlank c := by simp
    have hmk := IncludePath.mk hnil hnil h.nonempty h.head
    rwa [hmap, List.nil_append, List.append_nil] at hmk
  have hin : ∀ close, close ∉ sourceExtension → close ∉ n →
      Within close (n ++ sourceExtension) := by
    intro close hext hn c hc
    rcases List.mem_append.1 hc with hc | hc
    · exact ⟨fun he => hn (he ▸ hc), (h.chars c hc).2⟩
    · refine ⟨fun he => hext (he ▸ hc), ?_⟩
      rintro rfl
      exact absurd hc (by decide)
  have hnone : IsInline [] := by simp [IsInline]
  have hblank : IsInline [' '] := by simp [IsInline, Pattern.isInlineBlank]
  rcases h.delimited with hd | hd
  · have ht := IncludeText.angle hnone hblank (by simp) (hin '>' (by decide) hd) hpath
    exact token ht ht.fits
  · have ht := IncludeText.quote hnone hblank (by simp) (hin '"' (by decide) hd) hpath
    exact token ht ht.fits

theorem joined_eq_flatMap (sep t : Text) (ts : List Text) :
    joined sep (t :: ts) = t ++ ts.flatMap (sep ++ ·) := by
  induction ts generalizing t with
  | nil => simp [joined]
  | cons u ts ih => rw [joined, ih, List.flatMap_cons, List.append_assoc, List.append_assoc]

def scopedLexemes (ps : List Text) : List Lexeme :=
  ps.flatMap fun p => [⟨.scope, [':', ':']⟩, ⟨.ident, p⟩]

theorem scopedLexemes_mem {ps : List Text} (h : ∀ p ∈ ps, IsIdentifier p) :
    scopedLexemes ps ∈ (Spelling.mark .scope * Spelling.token .ident IsIdentifier)∗ := by
  refine Language.mem_kstar.2 ⟨ps.map fun p => [⟨.scope, [':', ':']⟩, ⟨.ident, p⟩], rfl, ?_⟩
  intro y hy
  obtain ⟨p, hp, rfl⟩ := List.mem_map.1 hy
  have hscope : ([⟨.scope, [':', ':']⟩] : List Lexeme) ∈ Spelling.mark .scope :=
    ⟨_, by decide, rfl⟩
  have hname : ([⟨.ident, p⟩] : List Lexeme) ∈ Spelling.token .ident IsIdentifier :=
    ⟨p, h p hp, rfl⟩
  exact Language.append_mem_mul hscope hname

theorem fits_scope : Fits ⟨.scope, [':', ':']⟩ :=
  .mark (by decide)

theorem scopedLexemes_fits {ps : List Text} (h : ∀ p ∈ ps, IsIdentifier p) :
    ∀ x ∈ scopedLexemes ps, x.Fits := by
  intro x hx
  obtain ⟨p, hp, hx⟩ := List.mem_flatMap.1 hx
  simp only [List.mem_cons, List.not_mem_nil, or_false] at hx
  rcases hx with rfl | rfl
  · exact fits_scope
  · exact fits_ident (h p hp)

theorem scopedName {n : Text} (h : IsScopedName n) : Printable (Spelling.scopedName n) := by
  obtain ⟨parts, hne, hparts, hn⟩ := h
  obtain ⟨p, ps, rfl⟩ := List.exists_cons_of_ne_nil hne
  rw [List.forall_mem_cons] at hparts
  have hname : ([⟨.ident, p⟩] : List Lexeme) ∈ Spelling.token .ident IsIdentifier :=
    ⟨p, hparts.1, rfl⟩
  have hmore := scopedLexemes_mem hparts.2
  have hfits : ∀ x ∈ ⟨.ident, p⟩ :: scopedLexemes ps, x.Fits :=
    List.forall_mem_cons.2 ⟨fits_ident hparts.1, scopedLexemes_fits hparts.2⟩
  have htext : joined [':', ':'] (p :: ps) =
      (⟨.ident, p⟩ :: scopedLexemes ps : List Lexeme).flatMap Lexeme.text := by
    simp [joined_eq_flatMap, scopedLexemes, List.flatMap_assoc]
  rcases hn with rfl | rfl
  · have hmem := Language.append_mem_mul (Language.append_mem_mul
      (show [] ∈ 1 + Spelling.mark .scope from .inl rfl) hname) hmore
    exact ⟨_, ⟨hmem, htext.symm⟩, hfits⟩
  · have hmem := Language.append_mem_mul (Language.append_mem_mul
      (show [⟨.scope, [':', ':']⟩] ∈ 1 + Spelling.mark .scope from .inr ⟨_, by decide, rfl⟩) hname)
      hmore
    exact ⟨_, ⟨hmem, by rw [htext]; rfl⟩, List.forall_mem_cons.2 ⟨fits_scope, hfits⟩⟩

theorem nameList {ns : List Text} (hkind : TokenKind.keywords.any (·.2 == kind) = true)
    (h : ∀ n ∈ ns, IsScopedName n) : Printable (Spelling.nameList kind ns) := by
  cases ns with
  | nil => exact one
  | cons n ns => exact (keyword hkind).mul (listed fun n' hn => scopedName (h n' hn))

theorem parenInt (n : Int) : Printable (Spelling.parenInt n) :=
  (mul (mark rfl) (int n)).mul (mark rfl)

theorem modifiers (ss : List Literal) (isLocal : Bool) :
    Printable (Spelling.modifiers ss isLocal) :=
  (bracketed ss).mul (flag isLocal (keyword rfl))

theorem body (h : Printable l) : Printable (Spelling.body l) :=
  ((mul (mark rfl) h).mul (mark rfl)).mul maybe

theorem type {t : TypeRef} (h : t.WellFormed) : Printable t.spelling :=
  ((scopedName h).mul (flag _ (mark rfl))).mul (flag _ (mark rfl))

theorem taggedType (tag : Option Nat) {t : TypeRef} (h : t.WellFormed) :
    Printable (t.taggedSpelling tag) :=
  mul (elim tag fun n _ => mul (keyword rfl) (parenInt n)) (type h)

theorem annotatedType (ss : List Literal) {t : TypeRef} (h : t.WellFormed) :
    Printable (Spelling.bracketed ss * t.spelling) :=
  (bracketed ss).mul (type h)

theorem initial {v : ConstValue} (h : v.WellFormed) : Printable v.initialSpelling := by
  refine mul (mark rfl) ?_
  cases v with
  | int n => exact int n
  | float x => exact h.elim
  | string s => exact string s
  | bool b =>
    cases b
    · exact keyword rfl
    · exact keyword rfl
  | name n => exact scopedName h

theorem dataMember {m : DataMember} (h : m.WellFormed) : Printable m.spelling :=
  ((((bracketed _).mul (taggedType _ h.type)).mul (ident h.name)).mul
    (elim _ fun v hv => initial (h.default v hv))).mul (mark rfl)

theorem param {p : Param} (h : p.WellFormed) : Printable p.spelling :=
  (((bracketed _).mul (flag _ (keyword rfl))).mul (taggedType _ h.type)).mul (ident h.name)

theorem operation {o : Operation} (h : o.WellFormed) : Printable o.spelling := by
  have htype := taggedType o.returnTag h.returnType
  have hparams := listed fun p hp => param (h.params p hp)
  have hthrows : Printable (Spelling.nameList .kwThrows o.throws) := nameList rfl h.throws
  exact ((((((((bracketed _).mul (flag _ (keyword rfl))).mul htype).mul (ident h.name)).mul
    (mark rfl)).mul hparams).mul (mark rfl)).mul hthrows).mul (mark rfl)

theorem interface {d : Interface} (h : d.WellFormed) : Printable d.spelling :=
  ((((modifiers _ _).mul (keyword rfl)).mul (ident h.name)).mul (nameList rfl h.bases)).mul
    (body (prod_map fun o ho => operation (h.operations o ho)))

theorem base {base : Option Text} (h : ∀ n ∈ base, IsScopedName n) :
    Printable (baseSpelling base) :=
  elim base fun n hn => mul (keyword rfl) (scopedName (h n hn))

theorem classItems {d : Class} (h : d.WellFormed) : Printable d.itemsSpelling := by
  -- The members of a class can stand in front of its operations.
  obtain ⟨ls, hls, hfits⟩ := (prod_map fun m hm => dataMember (h.members m hm)).mul
    (prod_map fun o ho => operation (h.operations o ho))
  refine ⟨ls, ⟨d.members.map .inl ++ d.operations.map .inr, ?_, ?_, ?_⟩, hfits⟩
  · simp [List.filterMap_map, Function.comp_def]
  · simp [List.filterMap_map, Function.comp_def]
  · simpa [List.map_map, Function.comp_def] using hls

theorem «class» {d : Class} (h : d.WellFormed) : Printable d.spelling :=
  ((((((modifiers _ _).mul (keyword rfl)).mul (ident h.name)).mul
    (elim _ fun n _ => parenInt n)).mul (base h.base)).mul (nameList rfl h.implements)).mul
    (body (classItems h))

theorem forward {d : Forward} (h : IsIdentifier d.name) : Printable d.spelling := by
  have hkind : TokenKind.keywords.any (·.2 == d.kind.keyword) = true := by
    cases d.kind <;> rfl
  exact (((modifiers _ _).mul (keyword hkind)).mul (ident h)).mul (mark rfl)

theorem «exception» {d : Exception} (h : d.WellFormed) : Printable d.spelling :=
  ((((modifiers _ _).mul (keyword rfl)).mul (ident h.name)).mul (base h.base)).mul
    (body (prod_map fun m hm => dataMember (h.members m hm)))

theorem struct {d : Struct} (h : d.WellFormed) : Printable d.spelling :=
  (((modifiers _ _).mul (keyword rfl)).mul (ident h.name)).mul
    (body (prod_map fun m hm => dataMember (h.members m hm)))

theorem enumerator {e : Enumerator} (h : IsIdentifier e.name) : Printable e.spelling :=
  (ident h).mul (elim _ fun n _ => mul (mark rfl) (int n))

theorem enum {d : Enum} (h : d.WellFormed) : Printable d.spelling :=
  (((modifiers _ _).mul (keyword rfl)).mul (ident h.name)).mul
    (body ((listed fun e he => enumerator (h.enumerators e he)).mul maybe))

theorem sequence {d : Sequence} (h : d.WellFormed) : Printable d.spelling := by
  have helement := annotatedType d.elementMetadata h.elementType
  exact ((((((modifiers _ _).mul (keyword rfl)).mul (mark rfl)).mul helement).mul (mark rfl)).mul
    (ident h.name)).mul (mark rfl)

theorem dictionary {d : Dictionary} (h : d.WellFormed) : Printable d.spelling := by
  have hkey := annotatedType d.keyMetadata h.keyType
  have hvalue := annotatedType d.valueMetadata h.valueType
  exact ((((((((modifiers _ _).mul (keyword rfl)).mul (mark rfl)).mul hkey).mul (mark rfl)).mul
    hvalue).mul (mark rfl)).mul (ident h.name)).mul (mark rfl)

theorem const {d : Const} (h : d.WellFormed) : Printable d.spelling :=
  (((((bracketed _).mul (keyword rfl)).mul (annotatedType _ h.type)).mul (ident h.name)).mul
    (initial h.value)).mul (mark rfl)

mutual

theorem module : (d : Module) → d.WellFormed → Printable d.spelling
  | .mk name loc definitions ss, h => by
    rw [Module.WellFormed] at h
    rw [Module.spelling]
    exact (((bracketed ss).mul (keyword rfl)).mul (scopedName h.1)).mul
      (body (Printable.definitions definitions h.2))

theorem definition : (d : Definition) → d.WellFormed → Printable d.spelling
  | .module d, h => module d h
  | .interface _, h => interface h
  | .class _, h => «class» h
  | .forward _, h => forward h
  | .exception _, h => «exception» h
  | .struct _, h => struct h
  | .enum _, h => enum h
  | .sequence _, h => sequence h
  | .dictionary _, h => dictionary h
  | .const _, h => const h

theorem definitions : (ds : List Definition) → DefinitionsWellFormed ds →
    Printable (definitionsSpelling ds)
  | [], _ => one
  | d :: ds, h => by
    rw [DefinitionsWellFormed] at h
    rw [definitionsSpelling]
    exact (definition d h.1).mul (definitions ds h.2)

end

end Printable

open Grammar

/-- Some items that a file can have for the document can all be printed. -/
def Document.Prints (d : Document) : Prop :=
  ∃ es, d.Arranged es ∧ ∀ e ∈ es, Printable e.spelling

namespace Document.Prints

variable {ns : List Text} {ss : List Literal} {ms : List SliceIdl.Module}

theorem modules (h : ∀ m ∈ ms, m.WellFormed) : Prints ⟨false, [], [], ms⟩ := by
  induction ms with
  | nil => exact ⟨[], .nil, by simp⟩
  | cons m ms ih =>
    rw [List.forall_mem_cons] at h
    obtain ⟨es, hes, hp⟩ := ih h.2
    exact ⟨_, .module m hes, List.forall_mem_cons.2 ⟨Printable.module m h.1, hp⟩⟩

theorem fileMetadata (ss : List Literal) (h : Prints ⟨false, [], [], ms⟩) :
    Prints ⟨false, [], ss, ms⟩ := by
  obtain ⟨es, hes, hp⟩ := h
  by_cases hne : ss = []
  · subst hne
    exact ⟨es, hes, hp⟩
  · have hitem : Printable (Entry.metadata ss).spelling :=
      (Printable.mul (.mark rfl) (.bracketed ss)).mul (.mark rfl)
    have harranged := Arranged.metadata hne hes
    rw [List.append_nil] at harranged
    exact ⟨_, harranged, List.forall_mem_cons.2 ⟨hitem, hp⟩⟩

theorem includes (hd : ns.Nodup) (hns : ∀ n ∈ ns, CanBeIncluded n)
    (h : Prints ⟨false, [], ss, ms⟩) : Prints ⟨false, ns, ss, ms⟩ := by
  induction ns with
  | nil => exact h
  | cons n ns ih =>
    rw [List.forall_mem_cons] at hns
    rw [List.nodup_cons] at hd
    obtain ⟨es, hes, hp⟩ := ih hd.2 hns.2
    have hfilter : ns.filter (· ≠ n) = ns :=
      List.filter_eq_self.2 fun m hm => by
        rw [decide_eq_true_eq]
        rintro rfl
        exact hd.1 hm
    have harranged := Arranged.includeName n hes
    rw [hfilter] at harranged
    exact ⟨_, harranged, List.forall_mem_cons.2 ⟨Printable.includeText hns.1, hp⟩⟩

theorem pragmaOnce (b : Bool) (h : Prints ⟨false, ns, ss, ms⟩) : Prints ⟨b, ns, ss, ms⟩ := by
  cases b with
  | false => exact h
  | true =>
    obtain ⟨es, hes, hp⟩ := h
    have hitem : Printable Entry.pragmaOnce.spelling :=
      .token trivial (.pragmaOnce (a := []) (b := [' ']) (by simp [IsInline])
        (by simp [IsInline, Pattern.isInlineBlank]) (by simp))
    exact ⟨_, .pragmaOnce hes, List.forall_mem_cons.2 ⟨hitem, hp⟩⟩

end Document.Prints

theorem Document.WellFormed.printable {d : Document} (h : d.WellFormed) : Printable d.spelling := by
  have hprints := (Document.Prints.modules h.modules).fileMetadata d.fileMetadata
  obtain ⟨es, hes, hp⟩ := (hprints.includes h.distinct h.includes).pragmaOnce d.pragmaOnce
  obtain ⟨ls, hls, hfits⟩ := Printable.prod_map hp
  exact ⟨ls, ⟨es, hes, hls⟩, hfits⟩

theorem written_of_fits {ls : List Lexeme} (h : ∀ x ∈ ls, x.Fits) :
    Written ls (ls.flatMap fun x => ' ' :: x.text) := by
  -- A blank in front of each token keeps the tokens apart.
  induction ls with
  | nil => exact .nil .nil
  | cons x ls ih =>
    rw [List.forall_mem_cons] at h
    have hgap : Gap [' '] := .space rfl .nil
    have hblank : ∀ kind, runsInto kind ' ' = false := by
      intro kind
      cases kind <;> rfl
    have hend : HeadNot (runsInto x.kind) (ls.flatMap fun x => ' ' :: x.text) := by
      cases ls with
      | nil => exact headNot_nil
      | cons y ls => exact headNot_cons.2 (hblank x.kind)
    simpa using Written.cons hgap h.1 hend (ih h.2)

theorem Document.WellFormed.exists_spelled {d : Document} (h : d.WellFormed) :
    ∃ text, d.Spelled text := by
  obtain ⟨ls, hls, hfits⟩ := h.printable
  exact ⟨_, ls, hls, written_of_fits hfits⟩

end SliceIdl
