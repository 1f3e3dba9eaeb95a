import SliceIdl.Proofs.Document.Includes
import SliceIdl.Proofs.Document.Locations

/-!
# Parsed documents obey the rules

Whoever reads a document may rely on what the parser has checked, at any depth: structures and
enumerations are not empty, the parameters of an operation have different names, tags are not
negative, and all names are names of the language. The names come from tokens that fit their kinds,
the rest from the checks that each declaration has passed.
-/

set_option autoImplicit false

namespace SliceIdl
open Text Lexeme

def IsTag (own : List Token) (tag : Option Nat) : Prop :=
  Json.natOption tag = .null ∨ ∃ k : Int, 0 ≤ k ∧ Json.natOption tag = .int k ∧
    ∃ t ∈ own, t.kind = .int ∧ Literal.int t.text = .ok k

namespace ConstValue

inductive KindMatches : String → Json → Prop
  | int (n : Int) : KindMatches "int" (.int n)
  | float (x : Binary64) : KindMatches "float" (.float x)
  | string (s : Literal) : KindMatches "string" (.str s)
  | bool (b : Bool) : KindMatches "bool" (.bool b)
  | name {n : Text} (h : IsScopedName n) : KindMatches "name" (.text n)

def ReadFrom (ts : List Token) : ConstValue → Prop
  | int n => ∃ t, ts = [t] ∧ t.kind = .int ∧ Literal.int t.text = .ok n
  | float x => ∃ t, ts = [t] ∧ t.kind = .float ∧ Literal.float t.text = x
  | string s => ∃ t, ts = [t] ∧ t.kind = .string ∧ Literal.ofToken? t.text = some s
  | bool b => ∃ t, ts = [t] ∧ t.kind = if b then .kwTrue else .kwFalse
  | name n => (∀ t ∈ ts, t.kind = .ident ∨ t.kind = .scope) ∧ ts.flatMap Token.text = n

structure Lawful (own : List Token) (v : ConstValue) : Prop where
  kind : ∃ kind value, KindMatches kind value ∧
    v.toJson = Json.node "value" [("valueKind", .ofString kind), ("value", value)]
  read : ∃ ts, ts ⊆ own ∧ v.ReadFrom ts

end ConstValue

def Node.Lawful (own : List Token) : Node → Prop
  | module d => IsScopedName d.name
  | interface d => IsIdentifier d.name ∧ ∀ n ∈ d.bases, IsScopedName n
  | .class d =>
    IsIdentifier d.name ∧ (∀ n ∈ d.base, IsScopedName n) ∧ ∀ n ∈ d.implements, IsScopedName n
  | forward d => IsIdentifier d.name
  | exception d => IsIdentifier d.name ∧ ∀ n ∈ d.base, IsScopedName n
  | .struct d => IsIdentifier d.name ∧ d.members ≠ []
  | enum d => IsIdentifier d.name ∧ d.enumerators ≠ []
  | sequence d => IsIdentifier d.name ∧ IsScopedName d.elementType.name
  | dictionary d =>
    IsIdentifier d.name ∧ IsScopedName d.keyType.name ∧ IsScopedName d.valueType.name
  | const d => IsIdentifier d.name ∧ IsScopedName d.type.name ∧ d.value.Lawful own
  | member m =>
    IsIdentifier m.name ∧ IsScopedName m.type.name ∧ IsTag own m.tag ∧
      ∀ v ∈ m.default, v.Lawful own
  | operation o =>
    IsIdentifier o.name ∧ IsScopedName o.returnType.name ∧ IsTag own o.returnTag ∧
      (o.params.map Param.name).Nodup ∧ ∀ n ∈ o.throws, IsScopedName n
  | param p => IsIdentifier p.name ∧ IsScopedName p.type.name ∧ IsTag own p.tag
  | enumerator e => IsIdentifier e.name

/-- All declarations of a document obey the rules, and it includes the names that the include lines
among the pieces of its text denote, in the order in which they stand there first. -/
structure Document.Lawful (source : Text) (d : Document) : Prop where
  nodes : ∀ n, d.Has n → ∃ own, own <:+: (Scan.ofText source).tokens ∧ n.Lawful own
  includes : ∃ names,
    List.Forall₂ IncludeText names ((pieces source).1.filterMap Piece.includeLine?) ∧
      d.includes = names.eraseDups
  distinct : d.includes.Nodup
  named : ∀ name ∈ d.includes, name ≠ [] ∧ '\\' ∉ name

namespace Grammar

variable {own : List Token}

theorem forall_tailTokens {kind : TokenKind} {α : Type} {f : α → List Token} {p : Token → Prop}
    {rest : List (Tok kind × α)} : (∀ t ∈ tailTokens f rest, p t) ↔
      ∀ part ∈ rest, p part.1.token ∧ ∀ t ∈ f part.2, p t := by
  induction rest with
  | nil => simp [tailTokens]
  | cons part rest ih =>
    simp only [tailTokens, List.forall_mem_append, ih, List.forall_mem_cons, Tok.tokens]
    simp

theorem isIdentifier_of_isFit {t : Tok .ident} (h : ∀ u ∈ t.tokens, u.IsFit) :
    IsIdentifier t.text :=
  (h t.token List.mem_cons_self (by simp [Tok.token])).isIdentifier

theorem scope_of_isFit {t : Tok .scope} (h : t.token.IsFit) : t.text = [':', ':'] :=
  (h (by simp [Tok.token])).scope

theorem ScopedName.kinds (n : ScopedName) :
    ∀ t ∈ n.tokens, t.kind = .ident ∨ t.kind = .scope := by
  simp only [tokens, List.forall_mem_append, forall_tailTokens]
  refine ⟨⟨?_, by simp [Tok.tokens, Tok.token]⟩, by simp [Tok.tokens, Tok.token]⟩
  cases n.lead <;> simp [optTokens, Tok.tokens, Tok.token]

theorem ScopedName.isScopedName {n : ScopedName} (h : ∀ t ∈ n.tokens, t.IsFit) :
    IsScopedName n.text := by
  simp only [tokens, List.forall_mem_append, forall_tailTokens] at h
  obtain ⟨⟨hlead, hfirst⟩, hmore⟩ := h
  refine ⟨n.first.text :: n.more.map fun part => part.2.text, by simp, ?_, ?_⟩
  · refine List.forall_mem_cons.2 ⟨isIdentifier_of_isFit hfirst, fun p hp => ?_⟩
    obtain ⟨part, hpart, rfl⟩ := List.mem_map.1 hp
    exact isIdentifier_of_isFit (hmore part hpart).2
  · have hparts : (n.more.flatMap fun part => part.1.text ++ part.2.text) =
        (n.more.map fun part => part.2.text).flatMap ([':', ':'] ++ ·) := by
      rw [List.flatMap_map]
      refine List.flatMap_congr fun part hpart => ?_
      rw [scope_of_isFit (hmore part hpart).1]
    rw [Printable.joined_eq_flatMap, text, hparts]
    cases hl : n.lead with
    | none => exact .inl rfl
    | some t =>
      rw [hl] at hlead
      exact .inr (by rw [← scope_of_isFit (hlead t.token List.mem_cons_self)]; simp)

theorem TypeName.isScopedName {t : TypeName} (h : ∀ u ∈ t.tokens, u.IsFit) :
    IsScopedName t.build.name := by
  simp only [tokens, List.forall_mem_append] at h
  exact ScopedName.isScopedName h.1.1

theorem MemberType.isScopedName {t : MemberType} (h : ∀ u ∈ t.tokens, u.IsFit) :
    IsScopedName t.type.build.name := by
  simp only [tokens, List.forall_mem_append] at h
  exact TypeName.isScopedName h.2

theorem AnnotatedType.isScopedName {t : AnnotatedType} (h : ∀ u ∈ t.tokens, u.IsFit) :
    IsScopedName t.type.build.name := by
  simp only [tokens, List.forall_mem_append] at h
  exact TypeName.isScopedName h.2

theorem nameTexts_isScopedName {keyword : TokenKind} {n : Option (NameList keyword)}
    (h : ∀ t ∈ optTokens NameList.tokens n, t.IsFit) : ∀ m ∈ nameTexts n, IsScopedName m := by
  cases n with
  | none => simp [nameTexts]
  | some n =>
    simp only [optTokens, NameList.tokens, List.forall_mem_append, forall_tailTokens] at h
    obtain ⟨⟨-, hfirst⟩, hmore⟩ := h
    refine List.forall_mem_cons.2 ⟨ScopedName.isScopedName hfirst, fun m hm => ?_⟩
    obtain ⟨part, hpart, rfl⟩ := List.mem_map.1 hm
    exact ScopedName.isScopedName (hmore part hpart).2

theorem base_isScopedName {b : Option Base} (h : ∀ t ∈ optTokens Base.tokens b, t.IsFit) :
    ∀ n ∈ b.map fun b => b.name.text, IsScopedName n := by
  cases b with
  | none => simp
  | some b =>
    simp only [optTokens, Base.tokens, List.forall_mem_append] at h
    simpa using ScopedName.isScopedName h.2

theorem intValue_eq_ok {t : Tok .int} {n : Int} :
    intValue t = .ok n ↔ Literal.int t.text = .ok n := by
  rw [intValue]
  cases Literal.int t.text with
  | ok m => simp [pure, Except.pure]
  | error k => simp [throw, throwThe, MonadExceptOf.throw]

theorem stringValue_eq_ok {t : Tok .string} {s : Literal} :
    stringValue t = .ok s ↔ Literal.ofToken? t.text = some s := by
  rw [stringValue]
  cases Literal.ofToken? t.text with
  | none => simp [throw, throwThe, MonadExceptOf.throw]
  | some s => simp [pure, Except.pure]

theorem OptionalTag.build_eq_ok {t : OptionalTag} {k : Nat} :
    t.build = .ok k ↔ Literal.int t.number.value.text = .ok (k : Int) := by
  rw [build, build_bind_eq_ok, ← intValue_eq_ok]
  constructor
  · rintro ⟨n, hn, h⟩
    cases n with
    | ofNat n =>
      obtain rfl := build_pure_eq_ok.1 h
      exact hn
    | negSucc n =>
      dsimp only at h
      split at h <;> cases h
  · intro h
    exact ⟨k, h, rfl⟩

theorem MemberType.isTag {t : MemberType} {tag : Option Nat} (h : t.tagNumber = .ok tag)
    (hown : t.tokens ⊆ own) : IsTag own tag := by
  rw [tagNumber] at h
  cases ht : t.tag with
  | none =>
    rw [ht] at h
    cases h
    exact .inl rfl
  | some g =>
    rw [ht, Option.mapM_some] at h
    obtain ⟨k, hk, rfl⟩ := build_map_eq_ok.1 h
    refine .inr ⟨k, Int.natCast_nonneg k, rfl, g.number.value.token, hown ?_, rfl,
      OptionalTag.build_eq_ok.1 hk⟩
    simp [tokens, ht, optTokens, OptionalTag.tokens, ParenInt.tokens, Tok.tokens]

theorem ConstValue.lawful {v : ConstValue} {c : SliceIdl.ConstValue} (h : v.build = .ok c)
    (hfit : ∀ t ∈ v.tokens, t.IsFit) (hown : v.tokens ⊆ own) : c.Lawful own := by
  cases v with
  | int t =>
    obtain ⟨n, hn, rfl⟩ := build_map_eq_ok.1 h
    exact ⟨⟨_, _, .int n, rfl⟩, _, hown, t.token, rfl, rfl, intValue_eq_ok.1 hn⟩
  | float t =>
    obtain rfl := build_pure_eq_ok.1 h
    exact ⟨⟨_, _, .float _, rfl⟩, _, hown, t.token, rfl, rfl, rfl⟩
  | string t =>
    obtain ⟨s, hs, rfl⟩ := build_map_eq_ok.1 h
    exact ⟨⟨_, _, .string s, rfl⟩, _, hown, t.token, rfl, rfl, stringValue_eq_ok.1 hs⟩
  | true t =>
    obtain rfl := build_pure_eq_ok.1 h
    exact ⟨⟨_, _, .bool Bool.true, rfl⟩, _, hown, t.token, rfl, rfl⟩
  | false t =>
    obtain rfl := build_pure_eq_ok.1 h
    exact ⟨⟨_, _, .bool Bool.false, rfl⟩, _, hown, t.token, rfl, rfl⟩
  | name n =>
    obtain rfl := build_pure_eq_ok.1 h
    exact ⟨⟨_, _, .name (ScopedName.isScopedName hfit), rfl⟩, _, hown, n.kinds,
      (text_eq_flatMap n).symm⟩

theorem lawful_initial {i : Option Initial} {v : Option SliceIdl.ConstValue}
    (h : i.mapM (fun i => i.value.build) = .ok v)
    (hfit : ∀ t ∈ optTokens Initial.tokens i, t.IsFit) (hown : optTokens Initial.tokens i ⊆ own) :
    ∀ c ∈ v, c.Lawful own := by
  cases i with
  | none =>
    cases h
    simp
  | some i =>
    rw [Option.mapM_some] at h
    obtain ⟨c, hc, rfl⟩ := build_map_eq_ok.1 h
    simp only [optTokens, Initial.tokens, List.forall_mem_append] at hfit
    intro c' hc'
    obtain rfl : c = c' := by simpa using hc'
    exact ConstValue.lawful hc hfit.2 fun t ht => hown (List.mem_append_right _ ht)

theorem lawful_member {g : DataMember} {m : SliceIdl.DataMember} (h : g.build = .ok m)
    (hfit : ∀ t ∈ g.tokens, t.IsFit) : (Node.member m).Lawful g.tokens := by
  simp only [DataMember.build, build_bind_eq_ok, build_pure_eq_ok] at h
  obtain ⟨tag, htag, default, hdefault, metadata, -, rfl⟩ := h
  have htype : g.type.tokens ⊆ g.tokens := fun t ht => by simp [DataMember.tokens, ht]
  have hinitial : optTokens Initial.tokens g.initial ⊆ g.tokens := fun t ht => by
    simp [DataMember.tokens, ht]
  exact ⟨isIdentifier_of_isFit fun t ht => hfit t (by simp [DataMember.tokens, ht]),
    MemberType.isScopedName fun t ht => hfit t (htype ht), MemberType.isTag htag htype,
    lawful_initial hdefault (fun t ht => hfit t (hinitial ht)) hinitial⟩

theorem lawful_param {g : Param} {p : SliceIdl.Param} (h : g.build = .ok p)
    (hfit : ∀ t ∈ g.tokens, t.IsFit) : (Node.param p).Lawful g.tokens := by
  simp only [Param.build, build_bind_eq_ok, build_pure_eq_ok] at h
  obtain ⟨tag, htag, metadata, -, rfl⟩ := h
  have htype : g.type.tokens ⊆ g.tokens := fun t ht => by simp [Param.tokens, ht]
  exact ⟨isIdentifier_of_isFit fun t ht => hfit t (by simp [Param.tokens, ht]),
    MemberType.isScopedName fun t ht => hfit t (htype ht), MemberType.isTag htag htype⟩

theorem lawful_operation {g : Operation} {o : SliceIdl.Operation} (h : g.build = .ok o)
    (hfit : ∀ t ∈ g.tokens, t.IsFit) : (Node.operation o).Lawful g.tokens := by
  simp only [Operation.build, build_bind_eq_ok] at h
  obtain ⟨params, -, h⟩ := h
  split at h
  · cases h
  · next hnone =>
    simp only [build_bind_eq_ok, build_pure_eq_ok] at h
    obtain ⟨returnTag, htag, metadata, -, rfl⟩ := h
    have htype : g.type.tokens ⊆ g.tokens := fun t ht => by simp [Operation.tokens, ht]
    exact ⟨isIdentifier_of_isFit fun t ht => hfit t (by simp [Operation.tokens, ht]),
      MemberType.isScopedName fun t ht => hfit t (htype ht), MemberType.isTag htag htype,
      (firstRepeat?_eq_none.1 (Option.eq_none_iff_forall_ne_some.2 hnone)).1,
      nameTexts_isScopedName fun t ht => hfit t (by simp [Operation.tokens, ht])⟩

theorem lawful_enumerator {g : Enumerator} {e : SliceIdl.Enumerator} (h : g.build = .ok e)
    (hfit : ∀ t ∈ g.tokens, t.IsFit) : (Node.enumerator e).Lawful g.tokens := by
  simp only [Enumerator.build, build_bind_eq_ok, build_pure_eq_ok] at h
  obtain ⟨value, -, rfl⟩ := h
  exact isIdentifier_of_isFit fun t ht => hfit t (by simp [Enumerator.tokens, ht])

theorem lawful_interface {g : Interface} {d : SliceIdl.Interface} (h : g.build = .ok d)
    (hfit : ∀ t ∈ g.tokens, t.IsFit) : (Node.interface d).Lawful g.tokens := by
  simp only [Interface.build, build_bind_eq_ok, build_pure_eq_ok] at h
  obtain ⟨operations, -, metadata, -, rfl⟩ := h
  exact ⟨isIdentifier_of_isFit fun t ht => hfit t (by simp [Interface.tokens, ht]),
    nameTexts_isScopedName fun t ht => hfit t (by simp [Interface.tokens, ht])⟩

theorem lawful_class {g : Class} {d : SliceIdl.Class} (h : g.build = .ok d)
    (hfit : ∀ t ∈ g.tokens, t.IsFit) : (Node.class d).Lawful g.tokens := by
  simp only [Class.build, build_bind_eq_ok, build_pure_eq_ok] at h
  obtain ⟨compactId, -, members, -, operations, -, metadata, -, rfl⟩ := h
  exact ⟨isIdentifier_of_isFit fun t ht => hfit t (by simp [Class.tokens, ht]),
    base_isScopedName fun t ht => hfit t (by simp [Class.tokens, ht]),
    nameTexts_isScopedName fun t ht => hfit t (by simp [Class.tokens, ht])⟩

theorem lawful_forward {keyword : TokenKind} {kind : ForwardKind} {g : Forward keyword}
    {d : SliceIdl.Forward} (h : g.build kind = .ok d) (hfit : ∀ t ∈ g.tokens, t.IsFit) :
    (Node.forward d).Lawful g.tokens := by
  simp only [Forward.build, build_bind_eq_ok, build_pure_eq_ok] at h
  obtain ⟨metadata, -, rfl⟩ := h
  exact isIdentifier_of_isFit fun t ht => hfit t (by simp [Forward.tokens, ht])

theorem lawful_exception {g : Exception} {d : SliceIdl.Exception} (h : g.build = .ok d)
    (hfit : ∀ t ∈ g.tokens, t.IsFit) : (Node.exception d).Lawful g.tokens := by
  simp only [Exception.build, build_bind_eq_ok, build_pure_eq_ok] at h
  obtain ⟨members, -, metadata, -, rfl⟩ := h
  exact ⟨isIdentifier_of_isFit fun t ht => hfit t (by simp [Exception.tokens, ht]),
    base_isScopedName fun t ht => hfit t (by simp [Exception.tokens, ht])⟩

theorem lawful_struct {g : Struct} {d : SliceIdl.Struct} (h : g.build = .ok d)
    (hfit : ∀ t ∈ g.tokens, t.IsFit) : (Node.struct d).Lawful g.tokens := by
  simp only [Struct.build, build_bind_eq_ok] at h
  obtain ⟨members, -, h⟩ := h
  split at h
  · cases h
  · next hne =>
    simp only [build_bind_eq_ok, build_pure_eq_ok] at h
    obtain ⟨metadata, -, rfl⟩ := h
    exact ⟨isIdentifier_of_isFit fun t ht => hfit t (by simp [Struct.tokens, ht]),
      fun hnil => hne (List.isEmpty_iff.2 hnil)⟩

theorem lawful_enum {g : Enum} {d : SliceIdl.Enum} (h : g.build = .ok d)
    (hfit : ∀ t ∈ g.tokens, t.IsFit) : (Node.enum d).Lawful g.tokens := by
  simp only [Enum.build, build_bind_eq_ok] at h
  obtain ⟨enumerators, -, h⟩ := h
  split at h
  · cases h
  · next hne =>
    simp only [build_bind_eq_ok, build_pure_eq_ok] at h
    obtain ⟨metadata, -, rfl⟩ := h
    exact ⟨isIdentifier_of_isFit fun t ht => hfit t (by simp [Enum.tokens, ht]),
      fun hnil => hne (List.isEmpty_iff.2 hnil)⟩

theorem lawful_sequence {g : Sequence} {d : SliceIdl.Sequence} (h : g.build = .ok d)
    (hfit : ∀ t ∈ g.tokens, t.IsFit) : (Node.sequence d).Lawful g.tokens := by
  simp only [Sequence.build, build_bind_eq_ok, build_pure_eq_ok] at h
  obtain ⟨elementMetadata, -, metadata, -, rfl⟩ := h
  exact ⟨isIdentifier_of_isFit fun t ht => hfit t (by simp [Sequence.tokens, ht]),
    AnnotatedType.isScopedName fun t ht => hfit t (by simp [Sequence.tokens, ht])⟩

theorem lawful_dictionary {g : Dictionary} {d : SliceIdl.Dictionary} (h : g.build = .ok d)
    (hfit : ∀ t ∈ g.tokens, t.IsFit) : (Node.dictionary d).Lawful g.tokens := by
  simp only [Dictionary.build, build_bind_eq_ok, build_pure_eq_ok] at h
  obtain ⟨keyMetadata, -, valueMetadata, -, metadata, -, rfl⟩ := h
  exact ⟨isIdentifier_of_isFit fun t ht => hfit t (by simp [Dictionary.tokens, ht]),
    AnnotatedType.isScopedName fun t ht => hfit t (by simp [Dictionary.tokens, ht]),
    AnnotatedType.isScopedName fun t ht => hfit t (by simp [Dictionary.tokens, ht])⟩

theorem lawful_const {g : Const} {d : SliceIdl.Const} (h : g.build = .ok d)
    (hfit : ∀ t ∈ g.tokens, t.IsFit) : (Node.const d).Lawful g.tokens := by
  simp only [Const.build, build_bind_eq_ok, build_pure_eq_ok] at h
  obtain ⟨value, hvalue, typeMetadata, -, metadata, -, rfl⟩ := h
  have hinitial : g.initial.value.tokens ⊆ g.tokens := fun t ht => by
    simp [Const.tokens, Initial.tokens, ht]
  exact ⟨isIdentifier_of_isFit fun t ht => hfit t (by simp [Const.tokens, ht]),
    AnnotatedType.isScopedName fun t ht => hfit t (by simp [Const.tokens, ht]),
    ConstValue.lawful hvalue (fun t ht => hfit t (hinitial ht)) hinitial⟩

theorem lawful_module {g : Module} {d : SliceIdl.Module} (h : g.build = .ok d)
    (hfit : ∀ t ∈ g.tokens, t.IsFit) : (Node.module d).Lawful g.tokens := by
  cases g with
  | mk metadata keyword name left definitions right semicolon =>
  simp only [Module.build, build_bind_eq_ok, build_pure_eq_ok] at h
  obtain ⟨strings, -, ds, -, rfl⟩ := h
  exact ScopedName.isScopedName fun t ht => hfit t (by simp [Module.tokens, ht])

end Grammar

theorem Node.WrittenAs.lawful {n : Node} {own : List Token} (h : n.WrittenAs own)
    (hfit : ∀ t ∈ own, t.IsFit) : n.Lawful own := by
  cases h with
  | module h => exact Grammar.lawful_module h hfit
  | interface h => exact Grammar.lawful_interface h hfit
  | «class» h => exact Grammar.lawful_class h hfit
  | forward h => exact Grammar.lawful_forward h hfit
  | exception h => exact Grammar.lawful_exception h hfit
  | struct h => exact Grammar.lawful_struct h hfit
  | enum h => exact Grammar.lawful_enum h hfit
  | sequence h => exact Grammar.lawful_sequence h hfit
  | dictionary h => exact Grammar.lawful_dictionary h hfit
  | const h => exact Grammar.lawful_const h hfit
  | member h => exact Grammar.lawful_member h hfit
  | operation h => exact Grammar.lawful_operation h hfit
  | param h => exact Grammar.lawful_param h hfit
  | enumerator h => exact Grammar.lawful_enumerator h hfit

theorem Document.parse_lawful {source : Text} {d : Document}
    (h : Document.parse source = .ok d) : d.Lawful source := by
  obtain ⟨names, hnames, hincludes⟩ := includes_eq h
  have hnamed : ∀ name ∈ names, name ≠ [] ∧ '\\' ∉ name :=
    ((List.forall₂_and_left _ _).1 (hnames.imp fun _ _ hline => ⟨hline.name, hline⟩)).1
  refine ⟨fun n hn => ?_, ⟨names, hnames, hincludes⟩, hincludes ▸ nodup_eraseDups names,
    fun name hname => ?_⟩
  · obtain ⟨before, t, own, after, htokens, hown, -, -, -⟩ := hn.standsIn h
    have hpart : t :: own <:+: (Scan.ofText source).tokens := ⟨before, after, htokens.symm⟩
    exact ⟨t :: own, hpart, hown.lawful fun u hu => Scan.isFit (hpart.subset hu)⟩
  · rw [hincludes, List.mem_eraseDups] at hname
    exact hnamed name hname

/-- Two spellings of one path, a comment with another include line, and a tagged member. -/
def includingSource : Text :=
  "// #include <N.ice>\n#include <A\\B.ice>\n#include \"A/B.ice\"\n".toList ++
    "module M { struct S { optional(1) int x = 2; }; };".toList

/-- The path is included once, and nothing is included by the comment. -/
theorem Document.parse_lawful_including : ∃ d, Document.parse includingSource = .ok d ∧
    d.Lawful includingSource ∧ d.includes = ["A/B".toList] := by
  have hincludes : (Document.parse includingSource).toOption.map Document.includes =
      some ["A/B".toList] := by
    decide +kernel
  cases hd : Document.parse includingSource with
  | error e =>
    rw [hd] at hincludes
    cases hincludes
  | ok d =>
    rw [hd] at hincludes
    exact ⟨d, rfl, parse_lawful hd, Option.some.inj hincludes⟩

end SliceIdl
