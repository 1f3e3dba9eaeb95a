import SliceIdl.Proofs.Document.Spelling
import SliceIdl.Proofs.Grammar.Combinators

/-!
# Spellings are read as what they spell

Tokens whose lexemes are a spelling are the tokens of a tree, and the tree is built as what is
spelled. This passes from the parts of a spelling to the whole: a product is read as a pair of
trees, and a part that may be missing as a tree that may be missing.
-/

set_option autoImplicit false

namespace SliceIdl
open Grammar Parser
open scoped Computability

variable {α β δ : Type} {kind : TokenKind} {l m : Spellings} {f : α → List Token}
  {g : β → List Token} {p : α → Prop} {q : β → Prop}

/-- Tokens that are spelled as `l` says are the tokens of a tree with the property. -/
def Reads (l : Spellings) (f : α → List Token) (p : α → Prop) : Prop :=
  ∀ ts : List Token, ts.map Token.lexeme ∈ l → ∃ x, f x = ts ∧ p x

namespace Reads

theorem of (h : Reads l f p) (make : α → β) (htokens : ∀ x, g (make x) = f x)
    (hmake : ∀ x, p x → q (make x)) : Reads l g q := by
  intro ts hts
  obtain ⟨x, rfl, hx⟩ := h ts hts
  exact ⟨make x, htokens x, hmake x hx⟩

theorem mul (hl : Reads l f p) (hm : Reads m g q) :
    Reads (l * m) (fun x : α × β => f x.1 ++ g x.2) fun x => p x.1 ∧ q x.2 := by
  intro ts hts
  obtain ⟨a, ha, b, hb, hab⟩ := Language.mem_mul.1 hts
  obtain ⟨xs, ys, rfl, rfl, rfl⟩ := List.map_eq_append_iff.1 hab.symm
  obtain ⟨x, rfl, hx⟩ := hl xs ha
  obtain ⟨y, rfl, hy⟩ := hm ys hb
  exact ⟨(x, y), rfl, hx, hy⟩

theorem token (p : Text → Prop) :
    Reads (Spelling.token kind p) (Tok.tokens : Tok kind → List Token) fun t => p t.text := by
  rintro ts ⟨t, ht, hts⟩
  obtain ⟨tok, rfl, htok⟩ := List.map_eq_singleton_iff.1 hts
  obtain ⟨rfl, rfl⟩ := Lexeme.mk.inj htok
  exact ⟨⟨tok.text, tok.pos⟩, rfl, ht⟩

theorem none : Reads 1 (optTokens f) fun x => x = Option.none := by
  intro ts hts
  rw [Language.mem_one, List.map_eq_nil_iff] at hts
  exact ⟨Option.none, hts.symm, rfl⟩

theorem some (h : Reads l f p) : Reads l (optTokens f) fun x => ∃ y, x = Option.some y ∧ p y :=
  h.of Option.some (fun _ => rfl) fun y hy => ⟨y, rfl, hy⟩

theorem maybe (h : Reads l f p) : Reads (1 + l) (optTokens f) fun _ => True := by
  intro ts hts
  rcases Set.mem_or_mem_of_mem_union hts with hts | hts
  · obtain ⟨x, hx, -⟩ := none ts hts
    exact ⟨x, hx, trivial⟩
  · obtain ⟨x, hx, -⟩ := h.some ts hts
    exact ⟨x, hx, trivial⟩

theorem flag (b : Bool) (h : Reads l f p) :
    Reads (Spelling.flag b l) (optTokens f) fun x => x.isSome = b := by
  cases b with
  | false => exact none.of id (fun _ => rfl) (by simp)
  | true => exact h.some.of id (fun _ => rfl) (by rintro x ⟨y, rfl, -⟩; rfl)

theorem elim {r : δ → Spellings} {p : δ → α → Prop} (o : Option δ)
    (h : ∀ d ∈ o, Reads (r d) f (p d)) :
    Reads (o.elim 1 r) (optTokens f) fun x => Option.Rel p o x := by
  cases o with
  | none => exact none.of id (fun _ => rfl) (by rintro x rfl; exact .none)
  | some d => exact (h d rfl).some.of id (fun _ => rfl) (by rintro x ⟨y, rfl, hy⟩; exact .some hy)

theorem prod {r : δ → Spellings} {p : δ → α → Prop} (ds : List δ)
    (h : ∀ d ∈ ds, Reads (r d) f (p d)) :
    Reads (ds.map r).prod (fun xs => xs.flatMap f) fun xs => List.Forall₂ p ds xs := by
  induction ds with
  | nil =>
    intro ts hts
    rw [List.map_nil, List.prod_nil, Language.mem_one, List.map_eq_nil_iff] at hts
    exact ⟨[], hts.symm, .nil⟩
  | cons d ds ih =>
    rw [List.map_cons, List.prod_cons]
    have ih := ih fun d' hd => h d' (List.mem_cons_of_mem d hd)
    exact ((h d List.mem_cons_self).mul ih).of (fun x => x.1 :: x.2) (fun x => by simp)
      fun x hx => .cons hx.1 hx.2

theorem kstar (h : Reads l f p) : Reads (l∗) (fun xs : List α => xs.flatMap f) fun _ => True := by
  intro ts hts
  obtain ⟨parts, hparts, hmem⟩ := Language.mem_kstar.1 hts
  induction parts generalizing ts with
  | nil =>
    rw [List.flatten_nil, List.map_eq_nil_iff] at hparts
    exact ⟨[], hparts.symm, trivial⟩
  | cons part parts ih =>
    rw [List.flatten_cons] at hparts
    obtain ⟨ts₁, ts₂, rfl, hpart, hrest⟩ := List.map_eq_append_iff.1 hparts
    obtain ⟨x, rfl, -⟩ := h ts₁ (hpart ▸ hmem part List.mem_cons_self)
    have hmem := fun y hy => hmem y (List.mem_cons_of_mem part hy)
    obtain ⟨xs, rfl, -⟩ := ih ts₂ (Language.mem_kstar.2 ⟨parts, hrest, hmem⟩) hrest hmem
    exact ⟨x :: xs, rfl, trivial⟩

theorem mark : Reads (Spelling.mark kind) (Tok.tokens : Tok kind → List Token) fun _ => True :=
  (token _).of id (fun _ => rfl) fun _ _ => trivial

theorem keyword :
    Reads (Spelling.keyword kind) (Tok.tokens : Tok kind → List Token) fun _ => True :=
  (token _).of id (fun _ => rfl) fun _ _ => trivial

theorem listed {r : δ → Spellings} {p : δ → α → Prop} (d : δ) (ds : List δ)
    (h : ∀ d' ∈ d :: ds, Reads (r d') f (p d')) :
    Reads (Spelling.listed ((d :: ds).map r))
      (fun x : α × List (Tok .comma × α) => f x.1 ++ tailTokens f x.2)
      fun x => List.Forall₂ p (d :: ds) (x.1 :: x.2.map Prod.snd) := by
  have hcomma : Reads (Spelling.mark .comma) (Tok.tokens : Tok .comma → List Token) fun _ => True :=
    mark
  have htail := prod (r := fun d' => Spelling.mark .comma * r d') ds fun d' hd =>
    hcomma.mul (h d' (List.mem_cons_of_mem d hd))
  rw [List.map_cons, Spelling.listed, List.map_map]
  refine ((h d List.mem_cons_self).mul htail).of id (fun x => ?_) fun x hx => ?_
  · rw [id, tailTokens_eq_flatMap]
  · refine .cons hx.1 (List.forall₂_map_right_iff.2 (hx.2.imp fun _ _ hy => hy.2))

end Reads

/-- The tree is built as the value, up to what `erase` takes away. -/
def Builds (build : α → Build δ) (erase : δ → δ) (d : δ) (x : α) : Prop :=
  ∃ d', build x = .ok d' ∧ erase d' = erase d

theorem ok_bind {a : α} {k : α → Build β} : ((.ok a : Build α) >>= k) = k a := rfl

theorem map_eq_of_forall₂ {e : α → δ} {ds : List δ} {xs : List α}
    (h : List.Forall₂ (fun d x => e x = d) ds xs) : xs.map e = ds := by
  induction h with
  | nil => rfl
  | cons hx _ ih => rw [List.map_cons, hx, ih]

theorem mapM_eq_ok {build : α → Build δ} {ds : List δ} {xs : List α}
    (h : List.Forall₂ (fun d x => build x = .ok d) ds xs) : xs.mapM build = .ok ds := by
  induction h with
  | nil => rfl
  | cons hx _ ih =>
    rw [List.mapM_cons, hx, ih]
    rfl

theorem mapM_builds {build : α → Build δ} {erase : δ → δ} {ds : List δ} {xs : List α}
    (h : List.Forall₂ (Builds build erase) ds xs) :
    ∃ ds', xs.mapM build = .ok ds' ∧ ds'.map erase = ds.map erase := by
  induction h with
  | nil => exact ⟨[], rfl, rfl⟩
  | cons hx _ ih =>
    obtain ⟨d', hd, he⟩ := hx
    obtain ⟨ds', hds, hes⟩ := ih
    refine ⟨d' :: ds', ?_, by rw [List.map_cons, List.map_cons, he, hes]⟩
    rw [List.mapM_cons, hd, hds]
    rfl

theorem optionMapM_eq_ok {build : α → Build δ} {o : Option δ} {x : Option α}
    (h : Option.Rel (fun d x => build x = .ok d) o x) : x.mapM build = .ok o := by
  cases h with
  | none => rfl
  | some hx =>
    rw [Option.mapM_some, hx]
    rfl

theorem reads_string (s : Literal) :
    Reads (Spelling.string s) (Tok.tokens : Tok .string → List Token)
      fun t => stringValue t = .ok s := by
  refine (Reads.token _).of id (fun _ => rfl) ?_
  rintro t ⟨u, hu, ht⟩
  rw [id, stringValue, ht, hu.ofToken?_eq]
  rfl

theorem reads_int (n : Int) :
    Reads (Spelling.int n) (Tok.tokens : Tok .int → List Token) fun t => intValue t = .ok n := by
  refine (Reads.token _).of id (fun _ => rfl) fun t ht => ?_
  rw [id, intValue, ht.int_eq]
  rfl

theorem reads_ident (name : Text) :
    Reads (Spelling.ident name) (Tok.tokens : Tok .ident → List Token) fun t => t.text = name :=
  Reads.token _

theorem reads_metadata (s : Literal) (ss : List Literal) :
    Reads (Spelling.bracketed (s :: ss)) Metadata.tokens fun x => x.build = .ok (s :: ss) := by
  refine ((Reads.mark.mul (Reads.listed s ss fun s' _ => reads_string s')).mul Reads.mark).of
    (fun x => ⟨x.1.1, ⟨x.1.2.1, x.1.2.2⟩, x.2⟩) (fun _ => rfl) ?_
  rintro ⟨⟨left, first, more⟩, right⟩ ⟨⟨-, h⟩, -⟩
  exact mapM_eq_ok h

theorem reads_bracketed (ss : List Literal) :
    Reads (Spelling.bracketed ss) (optTokens Metadata.tokens)
      fun x => buildMetadata x = .ok ss := by
  cases ss with
  | nil => exact Reads.none.of id (fun _ => rfl) (by rintro x rfl; rfl)
  | cons s ss =>
    refine (reads_metadata s ss).some.of id (fun _ => rfl) ?_
    rintro x ⟨m, rfl, hm⟩
    exact hm

theorem text_eq_flatMap (n : ScopedName) : n.text = n.tokens.flatMap Token.text := by
  obtain ⟨lead, first, more⟩ := n
  cases lead <;>
  simp [ScopedName.text, ScopedName.tokens, Tok.tokens, Tok.token, tailTokens_eq_flatMap,
    List.flatMap_assoc]

theorem reads_scopedName (n : Text) :
    Reads (Spelling.scopedName n) ScopedName.tokens fun x => x.text = n := by
  rintro ts ⟨hts, hn⟩
  have h : Reads ((1 + Spelling.mark .scope) * Spelling.token .ident Lexeme.IsIdentifier *
      (Spelling.mark .scope * Spelling.token .ident Lexeme.IsIdentifier)∗)
      ScopedName.tokens fun _ => True :=
    ((Reads.mark.maybe.mul (Reads.token _)).mul (Reads.mark.mul (Reads.token _)).kstar).of
      (fun x => ⟨x.1.1, x.1.2, x.2⟩)
      (fun x => by simp [ScopedName.tokens, tailTokens_eq_flatMap]) fun _ _ => trivial
  obtain ⟨x, rfl, -⟩ := h ts hts
  refine ⟨x, rfl, ?_⟩
  show x.text = n
  rw [text_eq_flatMap, ← hn, List.flatMap_map]
  rfl

theorem reads_nameList (ns : List Text) :
    Reads (Spelling.nameList kind ns) (optTokens NameList.tokens)
      fun x : Option (NameList kind) => nameTexts x = ns := by
  cases ns with
  | nil => exact Reads.none.of id (fun _ => rfl) (by rintro x rfl; rfl)
  | cons n ns =>
    refine (Reads.keyword.mul (Reads.listed n ns fun n' _ => reads_scopedName n')).of
      (fun x => some ⟨x.1, x.2.1, x.2.2⟩) (fun x => List.append_assoc ..) ?_
    rintro ⟨keyword, first, more⟩ ⟨-, h⟩
    simpa [nameTexts, NameList.texts, Function.comp_def] using map_eq_of_forall₂ h

theorem reads_parenInt (n : Int) :
    Reads (Spelling.parenInt n) ParenInt.tokens fun x => intValue x.value = .ok n :=
  ((Reads.mark.mul (reads_int n)).mul Reads.mark).of (fun x => ⟨x.1.1, x.1.2, x.2⟩)
    (fun _ => rfl) fun _ hx => hx.1.2

theorem reads_modifiers (ss : List Literal) (isLocal : Bool) :
    Reads (Spelling.modifiers ss isLocal) Modifiers.tokens fun x =>
      buildMetadata x.metadata = .ok ss ∧ x.isLocal.isSome = isLocal :=
  ((reads_bracketed ss).mul (Reads.keyword.flag isLocal)).of (fun x => ⟨x.1, x.2⟩)
    (fun _ => rfl) fun _ hx => hx

theorem Reads.body {p : List α → Prop} (h : Reads l (fun xs : List α => xs.flatMap f) p) :
    Reads (Spelling.body l) (Body.tokens f) fun x => p x.items :=
  (((Reads.mark.mul h).mul Reads.mark).mul Reads.mark.maybe).of
    (fun x => ⟨x.1.1.1, x.1.1.2, x.1.2, x.2⟩) (fun _ => rfl) fun _ hx => hx.1.1.2

theorem reads_type (t : TypeRef) :
    Reads t.spelling TypeName.tokens fun x => x.build = t := by
  refine (((reads_scopedName t.name).mul (Reads.mark.flag t.optional)).mul
    (Reads.mark.flag t.proxy)).of (fun x => ⟨x.1.1, x.1.2, x.2⟩) (fun _ => rfl) ?_
  rintro ⟨⟨name, question⟩, star⟩ ⟨⟨hname, hquestion⟩, hstar⟩
  simp [TypeName.build, hname, hquestion, hstar]

theorem reads_tag (n : Nat) :
    Reads (Spelling.keyword .kwOptional * Spelling.parenInt n) OptionalTag.tokens
      fun x => x.build = .ok n := by
  refine (Reads.keyword.mul (reads_parenInt n)).of (fun x => ⟨x.1, x.2⟩) (fun _ => rfl) ?_
  rintro ⟨keyword, number⟩ ⟨-, hn⟩
  rw [OptionalTag.build, hn]
  rfl

theorem reads_taggedType (tag : Option Nat) (t : TypeRef) :
    Reads (t.taggedSpelling tag) MemberType.tokens fun x =>
      x.tagNumber = .ok tag ∧ x.type.build = t :=
  ((Reads.elim tag fun n _ => reads_tag n).mul (reads_type t)).of (fun x => ⟨x.1, x.2⟩)
    (fun _ => rfl) fun _ hx => ⟨optionMapM_eq_ok hx.1, hx.2⟩

theorem reads_annotatedType (ss : List Literal) (t : TypeRef) :
    Reads (Spelling.bracketed ss * t.spelling) AnnotatedType.tokens fun x =>
      buildMetadata x.metadata = .ok ss ∧ x.type.build = t :=
  ((reads_bracketed ss).mul (reads_type t)).of (fun x => ⟨x.1, x.2⟩) (fun _ => rfl)
    fun _ hx => hx

theorem reads_constValue (v : ConstValue) :
    Reads v.spelling Grammar.ConstValue.tokens fun x => x.build = .ok v := by
  cases v with
  | int n =>
    refine (reads_int n).of .int (fun _ => rfl) fun t ht => ?_
    rw [Grammar.ConstValue.build, ht]
    rfl
  | float x => exact fun ts hts => hts.elim
  | string s =>
    refine (reads_string s).of .string (fun _ => rfl) fun t ht => ?_
    rw [Grammar.ConstValue.build, ht]
    rfl
  | bool b =>
    cases b with
    | false => exact Reads.keyword.of .false (fun _ => rfl) fun _ _ => rfl
    | true => exact Reads.keyword.of .true (fun _ => rfl) fun _ _ => rfl
  | name n =>
    refine (reads_scopedName n).of .name (fun _ => rfl) fun t ht => ?_
    rw [Grammar.ConstValue.build, ht]
    rfl

theorem reads_initial (v : ConstValue) :
    Reads v.initialSpelling Initial.tokens fun x => x.value.build = .ok v :=
  (Reads.mark.mul (reads_constValue v)).of (fun x => ⟨x.1, x.2⟩) (fun _ => rfl) fun _ hx => hx.2

end SliceIdl
