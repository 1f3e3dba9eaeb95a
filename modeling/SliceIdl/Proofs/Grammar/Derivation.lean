import SliceIdl.Proofs.Grammar.Rules
import SliceIdl.Grammar.Tree

/-!
# Trees and rules

What a rule derives are the token lists of the trees of its kind. A phrase denotes trees in
this sense up to a length; that passes from the parts of a phrase to the whole, and behind a
token it is enough that the rest does so for shorter lists. Modules, which may hold modules, are
reached in this way from shorter ones.
-/

set_option autoImplicit false

namespace SliceIdl.Grammar

variable {α β : Type} {kind : TokenKind} {n : Nat} {ts : List Token} {a b e : Phrase} {r : Rule}

namespace Phrase

@[simp]
theorem matches_tok : (tok kind).Matches ts ↔ ∃ t : Tok kind, t.tokens = ts := by
  constructor
  · rintro ⟨⟩
    next t h =>
    subst h
    exact ⟨⟨t.text, t.pos⟩, rfl⟩
  · rintro ⟨t, rfl⟩
    exact .tok rfl

@[simp]
theorem matches_ref : (ref r).Matches ts ↔ (rules r).Matches ts :=
  ⟨fun h => by cases h; assumption, .ref⟩

@[simp]
theorem matches_seq :
    (seq a b).Matches ts ↔ ∃ xs ys, a.Matches xs ∧ b.Matches ys ∧ xs ++ ys = ts := by
  constructor
  · rintro ⟨⟩
    next xs ys ha hb => exact ⟨xs, ys, ha, hb, rfl⟩
  · rintro ⟨xs, ys, ha, hb, rfl⟩
    exact .seq ha hb

@[simp]
theorem matches_alt : (alt a b).Matches ts ↔ a.Matches ts ∨ b.Matches ts := by
  constructor
  · rintro ⟨⟩
    · next h => exact .inl h
    · next h => exact .inr h
  · rintro (h | h)
    · exact .left h
    · exact .right h

@[simp]
theorem matches_opt : (opt a).Matches ts ↔ ts = [] ∨ a.Matches ts := by
  constructor
  · rintro ⟨⟩
    · exact .inl rfl
    · next h => exact .inr h
  · rintro (rfl | h)
    · exact .none
    · exact .some h

/-- Of the lists shorter than `n` the phrase matches just those that `f` makes of a tree. -/
def Denotes (n : Nat) (e : Phrase) (f : α → List Token) : Prop :=
  ∀ ts, ts.length < n → (e.Matches ts ↔ ∃ x, f x = ts)

variable {f : α → List Token} {g : β → List Token}

theorem Denotes.mono {m : Nat} (h : Denotes n e f) (hm : m ≤ n) : Denotes m e f :=
  fun ts ht => h ts (Nat.lt_of_lt_of_le ht hm)

theorem Denotes.of (h : Denotes n e f) (make : α → β) (hmake : ∀ x, g (make x) = f x)
    (hsurj : Function.Surjective make) : Denotes n e g := by
  intro ts ht
  rw [h ts ht]
  constructor
  · rintro ⟨x, rfl⟩
    exact ⟨make x, hmake x⟩
  · rintro ⟨y, rfl⟩
    obtain ⟨x, rfl⟩ := hsurj y
    exact ⟨x, (hmake x).symm⟩

theorem denotes_tok : Denotes n (tok kind) (Tok.tokens : Tok kind → List Token) :=
  fun _ _ => matches_tok

theorem Denotes.ref (h : Denotes n (rules r) f) : Denotes n (ref r) f :=
  fun ts ht => matches_ref.trans (h ts ht)

theorem Denotes.seq (ha : Denotes n a f) (hb : Denotes n b g) :
    Denotes n (seq a b) fun x : α × β => f x.1 ++ g x.2 := by
  intro ts ht
  rw [matches_seq]
  constructor
  · rintro ⟨xs, ys, hx, hy, rfl⟩
    rw [List.length_append] at ht
    obtain ⟨x, rfl⟩ := (ha xs (by omega)).1 hx
    obtain ⟨y, rfl⟩ := (hb ys (by omega)).1 hy
    exact ⟨(x, y), rfl⟩
  · rintro ⟨⟨x, y⟩, rfl⟩
    simp only [List.length_append] at ht
    exact ⟨f x, g y, (ha _ (by omega)).2 ⟨x, rfl⟩, (hb _ (by omega)).2 ⟨y, rfl⟩, rfl⟩

theorem Denotes.tok_seq (hb : Denotes n b g) :
    Denotes (n + 1) (Phrase.seq (tok kind) b) fun x : Tok kind × β => x.1.tokens ++ g x.2 := by
  -- Behind the token the rest is shorter, so the bound goes down.
  intro ts ht
  rw [matches_seq]
  constructor
  · rintro ⟨xs, ys, hx, hy, rfl⟩
    obtain ⟨t, rfl⟩ := matches_tok.1 hx
    simp only [Tok.tokens, List.length_append, List.length_singleton] at ht
    obtain ⟨y, rfl⟩ := (hb ys (by omega)).1 hy
    exact ⟨(t, y), rfl⟩
  · rintro ⟨⟨t, y⟩, rfl⟩
    simp only [Tok.tokens, List.length_append, List.length_singleton] at ht
    exact ⟨t.tokens, g y, matches_tok.2 ⟨t, rfl⟩, (hb _ (by omega)).2 ⟨y, rfl⟩, rfl⟩

theorem Denotes.alt (ha : Denotes n a f) (hb : Denotes n b g) :
    Denotes n (alt a b) (Sum.elim f g) := by
  intro ts ht
  rw [matches_alt, ha ts ht, hb ts ht, Sum.exists]
  rfl

theorem Denotes.opt (ha : Denotes n a f) : Denotes n (opt a) (optTokens f) := by
  intro ts ht
  rw [matches_opt, ha ts ht, Option.exists]
  simp [optTokens, eq_comm]

theorem Denotes.star (ha : Denotes n a f) : Denotes n (star a) (List.flatMap f) := by
  intro ts ht
  constructor
  · intro h
    generalize hs : Phrase.star a = s at h
    induction h with
    | nil => exact ⟨[], rfl⟩
    | @cons a' xs ys hx _ _ ih =>
      cases hs
      rw [List.length_append] at ht
      obtain ⟨x, rfl⟩ := (ha xs (by omega)).1 hx
      obtain ⟨as, rfl⟩ := ih (by omega) rfl
      exact ⟨x :: as, rfl⟩
    | _ => cases hs
  · rintro ⟨as, rfl⟩
    induction as with
    | nil => exact .nil
    | cons x as ih =>
      rw [List.flatMap_cons, List.length_append] at ht
      rw [List.flatMap_cons]
      exact .cons ((ha _ (by omega)).2 ⟨x, rfl⟩) (ih (by omega))

theorem Denotes.tail (he : Denotes n e f) :
    Denotes n (Phrase.star (Phrase.seq (tok kind) e))
      (tailTokens f : List (Tok kind × α) → List Token) := by
  refine (denotes_tok.seq he).star.of id (fun xs => ?_) Function.surjective_id
  induction xs with
  | nil => rfl
  | cons x xs ih =>
    simp only [id_eq] at ih
    simp [tailTokens, ih]

end Phrase

open Phrase

variable {f : α → List Token}

theorem list_denotes (h : Denotes n e f) :
    Denotes n (list e) fun x : α × List (Tok .comma × α) => f x.1 ++ tailTokens f x.2 :=
  h.seq h.tail

theorem braced_denotes (h : Denotes n e f) : Denotes (n + 1) (braced e) (Body.tokens f) :=
  (h.star.seq (denotes_tok.seq denotes_tok.opt)).tok_seq.of
    (fun x => ⟨x.1, x.2.1, x.2.2.1, x.2.2.2⟩) (fun _ => by simp [Body.tokens])
    fun b => ⟨(b.left, b.items, b.right, b.semicolon), rfl⟩

theorem stringList_denotes : Denotes n (ref .stringList) StringList.tokens :=
  .ref <| (list_denotes denotes_tok).of (fun x => ⟨x.1, x.2⟩) (fun _ => rfl)
    fun s => ⟨(s.first, s.more), rfl⟩

theorem brackets_denotes :
    Denotes n (all [tok .leftBracket, ref .stringList, tok .rightBracket]) Metadata.tokens :=
  (denotes_tok.seq (stringList_denotes.seq denotes_tok)).of
    (fun x => ⟨x.1, x.2.1, x.2.2⟩) (fun _ => by simp [Metadata.tokens])
    fun m => ⟨(m.left, m.strings, m.right), rfl⟩

theorem metadata_denotes : Denotes n (ref .metadata) Metadata.tokens :=
  brackets_denotes.ref

theorem typeMetadata_denotes : Denotes n (ref .typeMetadata) Metadata.tokens :=
  brackets_denotes.ref

theorem scopedName_denotes : Denotes n (ref .scopedName) ScopedName.tokens :=
  .ref <| (denotes_tok.opt.seq (denotes_tok.seq denotes_tok.tail)).of
    (fun x => ⟨x.1, x.2.1, x.2.2⟩) (fun _ => by simp [ScopedName.tokens])
    fun s => ⟨(s.lead, s.first, s.more), rfl⟩

theorem nameList_denotes :
    Denotes n (seq (tok kind) (list (ref .scopedName)))
      (NameList.tokens : NameList kind → List Token) :=
  (denotes_tok.seq (list_denotes scopedName_denotes)).of
    (fun x => ⟨x.1, x.2.1, x.2.2⟩) (fun _ => by simp [NameList.tokens])
    fun s => ⟨(s.keyword, s.first, s.more), rfl⟩

theorem interfaceBases_denotes :
    Denotes n (ref .interfaceBases) (NameList.tokens : NameList .kwExtends → List Token) :=
  nameList_denotes.ref

theorem classImplements_denotes :
    Denotes n (ref .classImplements) (NameList.tokens : NameList .kwImplements → List Token) :=
  nameList_denotes.ref

theorem throwsClause_denotes :
    Denotes n (ref .throwsClause) (NameList.tokens : NameList .kwThrows → List Token) :=
  nameList_denotes.ref

theorem base_denotes : Denotes n (seq (tok .kwExtends) (ref .scopedName)) Base.tokens :=
  (denotes_tok.seq scopedName_denotes).of (fun x => ⟨x.1, x.2⟩) (fun _ => rfl)
    fun b => ⟨(b.keyword, b.name), rfl⟩

theorem classBase_denotes : Denotes n (ref .classBase) Base.tokens :=
  base_denotes.ref

theorem exceptionBase_denotes : Denotes n (ref .exceptionBase) Base.tokens :=
  base_denotes.ref

theorem typeName_denotes : Denotes n (ref .type) TypeName.tokens :=
  .ref <| (scopedName_denotes.seq (denotes_tok.opt.seq denotes_tok.opt)).of
    (fun x => ⟨x.1, x.2.1, x.2.2⟩) (fun _ => by simp [TypeName.tokens])
    fun t => ⟨(t.name, t.question, t.star), rfl⟩

theorem annotatedType_denotes :
    Denotes n (seq (opt (ref .typeMetadata)) (ref .type)) AnnotatedType.tokens :=
  (typeMetadata_denotes.opt.seq typeName_denotes).of (fun x => ⟨x.1, x.2⟩) (fun _ => rfl)
    fun t => ⟨(t.metadata, t.type), rfl⟩

theorem dictKey_denotes : Denotes n (ref .dictKey) AnnotatedType.tokens :=
  annotatedType_denotes.ref

theorem dictValue_denotes : Denotes n (ref .dictValue) AnnotatedType.tokens :=
  annotatedType_denotes.ref

theorem parenInt_denotes : Denotes n (ref .compactId) ParenInt.tokens :=
  .ref <| (denotes_tok.seq (denotes_tok.seq denotes_tok)).of
    (fun x => ⟨x.1, x.2.1, x.2.2⟩) (fun _ => by simp [ParenInt.tokens])
    fun p => ⟨(p.left, p.value, p.right), rfl⟩

theorem optionalTag_denotes : Denotes n (ref .optionalTag) OptionalTag.tokens :=
  .ref <| (denotes_tok.seq (denotes_tok.seq (denotes_tok.seq denotes_tok))).of
    (fun x => ⟨x.1, x.2.1, x.2.2.1, x.2.2.2⟩)
    (fun _ => by simp [OptionalTag.tokens, ParenInt.tokens])
    fun t => ⟨(t.keyword, t.number.left, t.number.value, t.number.right), rfl⟩

theorem memberType_denotes : Denotes n (ref .memberType) MemberType.tokens :=
  .ref <| (optionalTag_denotes.opt.seq typeName_denotes).of (fun x => ⟨x.1, x.2⟩) (fun _ => rfl)
    fun t => ⟨(t.tag, t.type), rfl⟩

theorem constValue_denotes : Denotes n (ref .constValue) ConstValue.tokens := by
  intro ts ht
  simp only [matches_ref (r := .constValue), rules, any, matches_alt, matches_tok,
    scopedName_denotes ts ht]
  constructor
  · rintro (⟨t, rfl⟩ | ⟨t, rfl⟩ | ⟨t, rfl⟩ | ⟨t, rfl⟩ | ⟨t, rfl⟩ | ⟨m, rfl⟩)
    · exact ⟨.int t, rfl⟩
    · exact ⟨.float t, rfl⟩
    · exact ⟨.string t, rfl⟩
    · exact ⟨.true t, rfl⟩
    · exact ⟨.false t, rfl⟩
    · exact ⟨.name m, rfl⟩
  · rintro ⟨v, rfl⟩
    cases v <;> simp [ConstValue.tokens]

theorem initial_denotes : Denotes n (seq (tok .equal) (ref .constValue)) Initial.tokens :=
  (denotes_tok.seq constValue_denotes).of (fun x => ⟨x.1, x.2⟩) (fun _ => rfl)
    fun i => ⟨(i.equal, i.value), rfl⟩

theorem dataMember_denotes : Denotes n (ref .dataMember) DataMember.tokens :=
  .ref <| (metadata_denotes.opt.seq (memberType_denotes.seq (denotes_tok.seq
    (initial_denotes.opt.seq denotes_tok)))).of
    (fun x => ⟨x.1, x.2.1, x.2.2.1, x.2.2.2.1, x.2.2.2.2⟩)
    (fun _ => by simp [DataMember.tokens])
    fun d => ⟨(d.metadata, d.type, d.name, d.initial, d.semicolon), rfl⟩

theorem param_denotes : Denotes n (ref .param) Param.tokens :=
  .ref <| (metadata_denotes.opt.seq (denotes_tok.opt.seq (memberType_denotes.seq denotes_tok))).of
    (fun x => ⟨x.1, x.2.1, x.2.2.1, x.2.2.2⟩) (fun _ => by simp [Param.tokens])
    fun p => ⟨(p.metadata, p.out, p.type, p.name), rfl⟩

theorem paramList_denotes : Denotes n (list (ref .param)) ParamList.tokens :=
  (list_denotes param_denotes).of (fun x => ⟨x.1, x.2⟩) (fun _ => rfl)
    fun l => ⟨(l.first, l.more), rfl⟩

theorem operation_denotes : Denotes n (ref .operation) Operation.tokens :=
  .ref <| (metadata_denotes.opt.seq (denotes_tok.opt.seq (memberType_denotes.seq (denotes_tok.seq
    (denotes_tok.seq (paramList_denotes.opt.seq (denotes_tok.seq
      (throwsClause_denotes.opt.seq denotes_tok)))))))).of
    (fun x => ⟨x.1, x.2.1, x.2.2.1, x.2.2.2.1, x.2.2.2.2.1, x.2.2.2.2.2.1, x.2.2.2.2.2.2.1,
      x.2.2.2.2.2.2.2.1, x.2.2.2.2.2.2.2.2⟩)
    (fun _ => by simp [Operation.tokens])
    fun o => ⟨(o.metadata, o.idempotent, o.type, o.name, o.left, o.params, o.right, o.throws,
      o.semicolon), rfl⟩

theorem classItem_denotes : Denotes n (ref .classItem) ClassItem.tokens := by
  refine .ref <| (dataMember_denotes.alt operation_denotes).of
    (Sum.elim ClassItem.member ClassItem.operation) (fun x => by cases x <;> rfl) ?_
  rintro (d | o)
  · exact ⟨.inl d, rfl⟩
  · exact ⟨.inr o, rfl⟩

theorem body_denotes (h : Denotes n e f) : Denotes n (braced e) (Body.tokens f) :=
  (braced_denotes h).mono (Nat.le_succ n)

theorem interface_denotes : Denotes n (ref .interfaceDef) Interface.tokens :=
  .ref <| (metadata_denotes.opt.seq (denotes_tok.opt.seq (denotes_tok.seq (denotes_tok.seq
    (interfaceBases_denotes.opt.seq (body_denotes operation_denotes)))))).of
    (fun x => ⟨⟨x.1, x.2.1⟩, x.2.2.1, x.2.2.2.1, x.2.2.2.2.1, x.2.2.2.2.2⟩)
    (fun _ => by simp [Interface.tokens, Modifiers.tokens])
    fun d => ⟨(d.modifiers.metadata, d.modifiers.isLocal, d.keyword, d.name, d.bases, d.body), rfl⟩

theorem forward_denotes :
    Denotes n (all [opt (ref .metadata), opt (tok .kwLocal), tok kind, tok .ident, tok .semicolon])
      (Forward.tokens : Forward kind → List Token) :=
  (metadata_denotes.opt.seq (denotes_tok.opt.seq (denotes_tok.seq (denotes_tok.seq
    denotes_tok)))).of
    (fun x => ⟨⟨x.1, x.2.1⟩, x.2.2.1, x.2.2.2.1, x.2.2.2.2⟩)
    (fun _ => by simp [Forward.tokens, Modifiers.tokens])
    fun d => ⟨(d.modifiers.metadata, d.modifiers.isLocal, d.keyword, d.name, d.semicolon), rfl⟩

theorem class_denotes : Denotes n (ref .classDef) Class.tokens :=
  .ref <| (metadata_denotes.opt.seq (denotes_tok.opt.seq (denotes_tok.seq (denotes_tok.seq
    (parenInt_denotes.opt.seq (classBase_denotes.opt.seq (classImplements_denotes.opt.seq
      (body_denotes classItem_denotes)))))))).of
    (fun x => ⟨⟨x.1, x.2.1⟩, x.2.2.1, x.2.2.2.1, x.2.2.2.2.1, x.2.2.2.2.2.1,
      x.2.2.2.2.2.2.1, x.2.2.2.2.2.2.2⟩)
    (fun _ => by simp [Class.tokens, Modifiers.tokens])
    fun d => ⟨(d.modifiers.metadata, d.modifiers.isLocal, d.keyword, d.name, d.compactId, d.base,
      d.implements, d.body), rfl⟩

theorem exception_denotes : Denotes n (ref .exceptionDef) Exception.tokens :=
  .ref <| (metadata_denotes.opt.seq (denotes_tok.opt.seq (denotes_tok.seq (denotes_tok.seq
    (exceptionBase_denotes.opt.seq (body_denotes dataMember_denotes)))))).of
    (fun x => ⟨⟨x.1, x.2.1⟩, x.2.2.1, x.2.2.2.1, x.2.2.2.2.1, x.2.2.2.2.2⟩)
    (fun _ => by simp [Exception.tokens, Modifiers.tokens])
    fun d => ⟨(d.modifiers.metadata, d.modifiers.isLocal, d.keyword, d.name, d.base, d.body), rfl⟩

theorem struct_denotes : Denotes n (ref .structDef) Struct.tokens :=
  .ref <| (metadata_denotes.opt.seq (denotes_tok.opt.seq (denotes_tok.seq (denotes_tok.seq
    (body_denotes dataMember_denotes))))).of
    (fun x => ⟨⟨x.1, x.2.1⟩, x.2.2.1, x.2.2.2.1, x.2.2.2.2⟩)
    (fun _ => by simp [Struct.tokens, Modifiers.tokens])
    fun d => ⟨(d.modifiers.metadata, d.modifiers.isLocal, d.keyword, d.name, d.body), rfl⟩

theorem enumerator_denotes : Denotes n (ref .enumerator) Enumerator.tokens := by
  have hvalue : Denotes n (seq (tok .equal) (tok .int)) EnumValue.tokens :=
    (denotes_tok.seq denotes_tok).of (fun x => ⟨x.1, x.2⟩) (fun _ => rfl)
      fun v => ⟨(v.equal, v.value), rfl⟩
  exact .ref <| (denotes_tok.seq hvalue.opt).of (fun x => ⟨x.1, x.2⟩) (fun _ => rfl)
    fun e => ⟨(e.name, e.value), rfl⟩

theorem enumeratorList_denotes :
    Denotes n (seq (list (ref .enumerator)) (opt (tok .comma))) EnumeratorList.tokens :=
  ((list_denotes enumerator_denotes).seq denotes_tok.opt).of
    (fun x => ⟨x.1.1, x.1.2, x.2⟩) (fun _ => by simp [EnumeratorList.tokens])
    fun l => ⟨((l.first, l.more), l.trailing), rfl⟩

theorem enum_denotes : Denotes n (ref .enumDef) Enum.tokens :=
  .ref <| (metadata_denotes.opt.seq (denotes_tok.opt.seq (denotes_tok.seq (denotes_tok.seq
    (denotes_tok.seq (enumeratorList_denotes.opt.seq (denotes_tok.seq
      denotes_tok.opt))))))).of
    (fun x => ⟨⟨x.1, x.2.1⟩, x.2.2.1, x.2.2.2.1, x.2.2.2.2.1, x.2.2.2.2.2.1,
      x.2.2.2.2.2.2.1, x.2.2.2.2.2.2.2⟩)
    (fun _ => by simp [Enum.tokens, Modifiers.tokens])
    fun d => ⟨(d.modifiers.metadata, d.modifiers.isLocal, d.keyword, d.name, d.left, d.enumerators,
      d.right, d.semicolon), rfl⟩

theorem sequence_denotes : Denotes n (ref .sequenceDef) Sequence.tokens :=
  .ref <| (metadata_denotes.opt.seq (denotes_tok.opt.seq (denotes_tok.seq (denotes_tok.seq
    (typeMetadata_denotes.opt.seq (typeName_denotes.seq (denotes_tok.seq (denotes_tok.seq
      denotes_tok)))))))).of
    (fun x => ⟨⟨x.1, x.2.1⟩, x.2.2.1, x.2.2.2.1, ⟨x.2.2.2.2.1, x.2.2.2.2.2.1⟩,
      x.2.2.2.2.2.2.1, x.2.2.2.2.2.2.2.1, x.2.2.2.2.2.2.2.2⟩)
    (fun _ => by simp [Sequence.tokens, Modifiers.tokens, AnnotatedType.tokens])
    fun d => ⟨(d.modifiers.metadata, d.modifiers.isLocal, d.keyword, d.left, d.element.metadata,
      d.element.type, d.right, d.name, d.semicolon), rfl⟩

theorem dictionary_denotes : Denotes n (ref .dictionaryDef) Dictionary.tokens :=
  .ref <| (metadata_denotes.opt.seq (denotes_tok.opt.seq (denotes_tok.seq (denotes_tok.seq
    (dictKey_denotes.seq (denotes_tok.seq (dictValue_denotes.seq
      (denotes_tok.seq (denotes_tok.seq denotes_tok))))))))).of
    (fun x => ⟨⟨x.1, x.2.1⟩, x.2.2.1, x.2.2.2.1, x.2.2.2.2.1, x.2.2.2.2.2.1,
      x.2.2.2.2.2.2.1, x.2.2.2.2.2.2.2.1, x.2.2.2.2.2.2.2.2.1, x.2.2.2.2.2.2.2.2.2⟩)
    (fun _ => by simp [Dictionary.tokens, Modifiers.tokens])
    fun d => ⟨(d.modifiers.metadata, d.modifiers.isLocal, d.keyword, d.left, d.key, d.comma,
      d.value, d.right, d.name, d.semicolon), rfl⟩

theorem const_denotes : Denotes n (ref .constDef) Const.tokens :=
  .ref <| (metadata_denotes.opt.seq (denotes_tok.seq (typeMetadata_denotes.opt.seq
    (typeName_denotes.seq (denotes_tok.seq (denotes_tok.seq (constValue_denotes.seq
      denotes_tok))))))).of
    (fun x => ⟨x.1, x.2.1, ⟨x.2.2.1, x.2.2.2.1⟩, x.2.2.2.2.1,
      ⟨x.2.2.2.2.2.1, x.2.2.2.2.2.2.1⟩, x.2.2.2.2.2.2.2⟩)
    (fun _ => by simp [Const.tokens, AnnotatedType.tokens, Initial.tokens])
    fun d => ⟨(d.metadata, d.keyword, d.type.metadata, d.type.type, d.name, d.initial.equal,
      d.initial.value, d.semicolon), rfl⟩

theorem module_denotes (h : Denotes n (ref .definition) Definition.tokens) :
    Denotes (n + 1) (ref .moduleDef) Module.tokens := by
  refine .ref <| (metadata_denotes.opt.seq (denotes_tok.seq (scopedName_denotes.seq
    (braced_denotes h)))).of
    (fun x =>
      .mk x.1 x.2.1 x.2.2.1 x.2.2.2.left x.2.2.2.items x.2.2.2.right x.2.2.2.semicolon)
    (fun _ => by simp [Module.tokens, Body.tokens, definitionsTokens_eq_flatMap]) ?_
  rintro ⟨m, keyword, name, left, items, right, semicolon⟩
  exact ⟨(m, keyword, name, ⟨left, items, right, semicolon⟩), rfl⟩

theorem definition_step (h : Denotes n (ref .moduleDef) Module.tokens) :
    Denotes n (ref .definition) Definition.tokens := by
  intro ts ht
  simp only [matches_ref (r := .definition), rules, any, matches_alt, h ts ht,
    interface_denotes ts ht, forward_denotes.ref (r := .interfaceFwd) ts ht,
    class_denotes ts ht, forward_denotes.ref (r := .classFwd) ts ht, exception_denotes ts ht,
    struct_denotes ts ht, enum_denotes ts ht, sequence_denotes ts ht, dictionary_denotes ts ht,
    const_denotes ts ht]
  constructor
  · rintro (⟨d, rfl⟩ | ⟨d, rfl⟩ | ⟨d, rfl⟩ | ⟨d, rfl⟩ | ⟨d, rfl⟩ | ⟨d, rfl⟩ | ⟨d, rfl⟩ | ⟨d, rfl⟩ |
      ⟨d, rfl⟩ | ⟨d, rfl⟩ | ⟨d, rfl⟩)
    · exact ⟨.module d, rfl⟩
    · exact ⟨.interface d, rfl⟩
    · exact ⟨.interfaceForward d, rfl⟩
    · exact ⟨.class d, rfl⟩
    · exact ⟨.classForward d, rfl⟩
    · exact ⟨.exception d, rfl⟩
    · exact ⟨.struct d, rfl⟩
    · exact ⟨.enum d, rfl⟩
    · exact ⟨.sequence d, rfl⟩
    · exact ⟨.dictionary d, rfl⟩
    · exact ⟨.const d, rfl⟩
  · rintro ⟨d, rfl⟩
    cases d <;> simp [Definition.tokens]

theorem definition_denotes (n : Nat) : Denotes n (ref .definition) Definition.tokens := by
  -- The induction is on the bound: the definitions in a module are shorter than the module.
  induction n with
  | zero => exact fun ts ht => absurd ht (Nat.not_lt_zero _)
  | succ n ih => exact definition_step (module_denotes ih)

theorem topItem_denotes : Denotes n (ref .topItem) TopItem.tokens := by
  have hmetadata : Denotes n (ref .fileMetadata) FileMetadata.tokens :=
    .ref <| (denotes_tok.seq (denotes_tok.seq (stringList_denotes.seq
      (denotes_tok.seq denotes_tok)))).of
      (fun x => ⟨x.1, ⟨x.2.1, x.2.2.1, x.2.2.2.1⟩, x.2.2.2.2⟩)
      (fun _ => by simp [FileMetadata.tokens, Metadata.tokens])
      fun m => ⟨(m.left, m.inner.left, m.inner.strings, m.inner.right, m.right), rfl⟩
  intro ts ht
  simp only [matches_ref (r := .topItem), rules, any, matches_alt, hmetadata ts ht,
    (module_denotes (definition_denotes n)).mono (Nat.le_succ n) ts ht,
    denotes_tok.ref (r := .pragmaOnce) ts ht, denotes_tok.ref (r := .includeFile) ts ht]
  constructor
  · rintro (⟨t, rfl⟩ | ⟨t, rfl⟩ | ⟨m, rfl⟩ | ⟨d, rfl⟩)
    · exact ⟨.pragmaOnce t, rfl⟩
    · exact ⟨.includeFile t, rfl⟩
    · exact ⟨.metadata m, rfl⟩
    · exact ⟨.module d, rfl⟩
  · rintro ⟨item, rfl⟩
    cases item <;> simp [TopItem.tokens]

/-- The rules derive just the lists that have a tree. -/
theorem start_matches_iff : (ref .start).Matches ts ↔ Derives ts := by
  have hstart : Denotes (ts.length + 1) (ref .start) File.tokens := topItem_denotes.star.ref
  exact hstart ts (Nat.lt_succ_self _)

end SliceIdl.Grammar
