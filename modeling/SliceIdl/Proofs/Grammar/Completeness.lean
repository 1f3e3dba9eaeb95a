import SliceIdl.Proofs.Grammar.Combinators

/-!
# The parser reads every tree

For every part of the grammar: given the tokens of a tree, its parser gives that tree and leaves
what follows. A part that may go on needs something else to follow it; each part with an end of its
own needs nothing.
-/

set_option autoImplicit false

namespace SliceIdl.Grammar

variable {α : Type} {kind : TokenKind} {more : TokenKind → Bool} {rest : List Token}

@[simp]
theorem startsWith_metadata (m : Metadata) :
    startsWith more (m.tokens ++ rest) = more .leftBracket := by
  simp [Metadata.tokens]

@[simp]
theorem startsWith_stringList (s : StringList) :
    startsWith more (s.tokens ++ rest) = more .string := by
  simp [StringList.tokens]

@[simp]
theorem startsWith_optMetadata {m : Option Metadata} :
    startsWith more (optTokens Metadata.tokens m ++ rest) =
      if m.isSome then more .leftBracket else startsWith more rest :=
  startsWith_optTokens fun _ => rfl

@[simp]
theorem startsWith_scopedName (n : ScopedName) :
    startsWith more (n.tokens ++ rest) = if n.lead.isSome then more .scope else more .ident := by
  simp [ScopedName.tokens]

@[simp]
theorem startsWith_nameList {n : Option (NameList kind)} :
    startsWith more (optTokens NameList.tokens n ++ rest) =
      if n.isSome then more kind else startsWith more rest :=
  startsWith_optTokens fun _ => rfl

@[simp]
theorem startsWith_base {b : Option Base} :
    startsWith more (optTokens Base.tokens b ++ rest) =
      if b.isSome then more .kwExtends else startsWith more rest :=
  startsWith_optTokens fun _ => rfl

@[simp]
theorem startsWith_typeName (t : TypeName) :
    startsWith more (t.tokens ++ rest) =
      if t.name.lead.isSome then more .scope else more .ident := by
  simp [TypeName.tokens]

@[simp]
theorem startsWith_parenInt {p : Option ParenInt} :
    startsWith more (optTokens ParenInt.tokens p ++ rest) =
      if p.isSome then more .leftParen else startsWith more rest :=
  startsWith_optTokens fun _ => rfl

theorem startsWith_optionalTag (t : OptionalTag) :
    startsWith more (t.tokens ++ rest) = more .kwOptional := by
  simp [OptionalTag.tokens]

@[simp]
theorem startsWith_memberType (t : MemberType) :
    startsWith more (t.tokens ++ rest) =
      if t.tag.isSome then more .kwOptional
      else if t.type.name.lead.isSome then more .scope else more .ident := by
  rw [MemberType.tokens, List.append_assoc,
    startsWith_optTokens fun t : OptionalTag => startsWith_optionalTag t, startsWith_typeName]

@[simp]
theorem startsWith_initial {i : Option Initial} :
    startsWith more (optTokens Initial.tokens i ++ rest) =
      if i.isSome then more .equal else startsWith more rest :=
  startsWith_optTokens fun _ => rfl

@[simp]
theorem startsWith_body (f : α → List Token) (b : Body α) :
    startsWith more (b.tokens f ++ rest) = more .leftBrace := by
  simp [Body.tokens]

@[simp]
theorem startsWith_enumerator (e : Enumerator) :
    startsWith more (e.tokens ++ rest) = more .ident := by
  simp [Enumerator.tokens]

@[simp]
theorem startsWith_enumeratorList (l : EnumeratorList) :
    startsWith more (l.tokens ++ rest) = more .ident := by
  simp [EnumeratorList.tokens]

namespace Parser

@[simp]
theorem stringList_tokens (s : StringList) (h : startsWith (· == .comma) rest = false) :
    stringList (s.tokens ++ rest) = .ok (s, rest) := by
  simp [stringList, StringList.tokens, h]

@[simp]
theorem metadataAfter_tokens (m : Metadata) :
    metadataAfter m.left (m.strings.tokens ++ (m.right.tokens ++ rest)) = .ok (m, rest) := by
  simp [metadataAfter]

@[simp]
theorem metadata_tokens (m : Metadata) : metadata (m.tokens ++ rest) = .ok (m, rest) := by
  simp [metadata, Metadata.tokens]

@[simp]
theorem opt_metadata {m : Option Metadata} (h : startsWith (· == .leftBracket) rest = false) :
    opt .leftBracket metadata (optTokens Metadata.tokens m ++ rest) = .ok (m, rest) :=
  opt_tokens (by simp) (fun _ _ => rfl) h

@[simp]
theorem scopedName_tokens (n : ScopedName) (h : startsWith (· == .scope) rest = false) :
    scopedName (n.tokens ++ rest) = .ok (n, rest) := by
  simp [scopedName, ScopedName.tokens, h]

@[simp]
theorem nameList_tokens (n : NameList kind) (hs : startsWith (· == .scope) rest = false)
    (hc : startsWith (· == .comma) rest = false) :
    nameList kind (n.tokens ++ rest) = .ok (n, rest) := by
  have htail : tail .comma scopedName (tailTokens ScopedName.tokens n.more ++ rest) =
      .ok (n.more, rest) :=
    tail_tokens (· == .scope) (fun a rest h => scopedName_tokens a h) rfl hs hc
  simp [nameList, NameList.tokens, htail, hs]

@[simp]
theorem opt_nameList {n : Option (NameList kind)} (h : startsWith (· == kind) rest = false)
    (hs : startsWith (· == .scope) rest = false) (hc : startsWith (· == .comma) rest = false) :
    opt kind (nameList kind) (optTokens NameList.tokens n ++ rest) = .ok (n, rest) :=
  opt_tokens (by simp [hs, hc]) (by simp [NameList.tokens]) h

@[simp]
theorem opt_base {b : Option Base} (h : startsWith (· == .kwExtends) rest = false)
    (hs : startsWith (· == .scope) rest = false) :
    opt .kwExtends base (optTokens Base.tokens b ++ rest) = .ok (b, rest) :=
  opt_tokens (by simp [base, Base.tokens, hs]) (fun _ _ => rfl) h

@[simp]
theorem typeName_tokens (t : TypeName) (hs : startsWith (· == .scope) rest = false)
    (hq : startsWith (· == .question) rest = false) (ht : startsWith (· == .star) rest = false) :
    typeName (t.tokens ++ rest) = .ok (t, rest) := by
  simp [typeName, TypeName.tokens, hs, hq, ht]

@[simp]
theorem annotatedType_tokens (t : AnnotatedType) (hs : startsWith (· == .scope) rest = false)
    (hq : startsWith (· == .question) rest = false) (ht : startsWith (· == .star) rest = false) :
    annotatedType (t.tokens ++ rest) = .ok (t, rest) := by
  simp [annotatedType, AnnotatedType.tokens, hs, hq, ht]

@[simp]
theorem parenInt_tokens (p : ParenInt) : parenInt (p.tokens ++ rest) = .ok (p, rest) := by
  simp [parenInt, ParenInt.tokens]

@[simp]
theorem opt_parenInt {p : Option ParenInt} (h : startsWith (· == .leftParen) rest = false) :
    opt .leftParen parenInt (optTokens ParenInt.tokens p ++ rest) = .ok (p, rest) :=
  opt_tokens (by simp) (fun _ _ => rfl) h

@[simp]
theorem memberType_tokens (t : MemberType) (hs : startsWith (· == .scope) rest = false)
    (hq : startsWith (· == .question) rest = false) (ht : startsWith (· == .star) rest = false) :
    memberType (t.tokens ++ rest) = .ok (t, rest) := by
  have htag : opt .kwOptional optionalTag (optTokens OptionalTag.tokens t.tag ++
      (t.type.tokens ++ rest)) = .ok (t.tag, t.type.tokens ++ rest) :=
    opt_tokens (by simp [optionalTag, OptionalTag.tokens]) (fun _ _ => rfl) (by simp)
  simp [memberType, MemberType.tokens, htag, hs, hq, ht]

theorem constValue_of_startsWith {ts : List Token} (h : nextKind ts = some .ident ∨
    nextKind ts = some .scope) : constValue ts = (.name <$> scopedName) ts := by
  rcases h with h | h <;> simp only [constValue, bind_apply, next_apply, ok_bind, h]

@[simp]
theorem constValue_tokens (v : ConstValue) (h : startsWith (· == .scope) rest = false) :
    constValue (v.tokens ++ rest) = .ok (v, rest) := by
  cases v with
  | name n =>
    have hnext : nextKind (n.tokens ++ rest) = some .ident ∨
        nextKind (n.tokens ++ rest) = some .scope := by
      obtain ⟨_ | lead, first, more⟩ := n
      · exact .inl rfl
      · exact .inr rfl
    rw [ConstValue.tokens, constValue_of_startsWith hnext]
    simp [h]
  | _ => simp [constValue, ConstValue.tokens]

@[simp]
theorem initial_tokens (i : Initial) (h : startsWith (· == .scope) rest = false) :
    initial (i.tokens ++ rest) = .ok (i, rest) := by
  simp [initial, Initial.tokens, h]

@[simp]
theorem opt_initial {i : Option Initial} (h : startsWith (· == .equal) rest = false)
    (hs : startsWith (· == .scope) rest = false) :
    opt .equal initial (optTokens Initial.tokens i ++ rest) = .ok (i, rest) :=
  opt_tokens (by simp [hs]) (fun _ _ => rfl) h

@[simp]
theorem dataMemberAfter_tokens (d : DataMember) :
    dataMemberAfter d.metadata d.type d.name
      (optTokens Initial.tokens d.initial ++ (d.semicolon.tokens ++ rest)) = .ok (d, rest) := by
  simp [dataMemberAfter]

@[simp]
theorem dataMember_tokens (d : DataMember) : dataMember (d.tokens ++ rest) = .ok (d, rest) := by
  simp [dataMember, DataMember.tokens]

@[simp]
theorem param_tokens (p : Param) : param (p.tokens ++ rest) = .ok (p, rest) := by
  simp [param, Param.tokens]

@[simp]
theorem paramList_tokens (p : ParamList) (h : startsWith (· == .comma) rest = false) :
    paramList (p.tokens ++ rest) = .ok (p, rest) := by
  have htail : tail .comma param (tailTokens Param.tokens p.more ++ rest) = .ok (p.more, rest) :=
    tail_tokens (fun _ => false) (by simp) rfl (by simp [startsWith]) h
  simp [paramList, ParamList.tokens, htail]

@[simp]
theorem params_tokens (p : Option ParamList) (right : Tok .rightParen) :
    params (optTokens ParamList.tokens p ++ (right.tokens ++ rest)) =
      .ok (p, right.tokens ++ rest) := by
  cases p with
  | none => simp [params, optTokens]
  | some p =>
    have hstart : startsWith (· == .rightParen) (p.tokens ++ (right.tokens ++ rest)) = false := by
      simp [ParamList.tokens, Param.tokens]
    simp [params, optTokens, hstart]

@[simp]
theorem operationAfter_tokens (o : Operation) :
    operationAfter o.metadata o.idempotent o.type o.name
      (o.left.tokens ++ (optTokens ParamList.tokens o.params ++ (o.right.tokens ++
        (optTokens NameList.tokens o.throws ++ (o.semicolon.tokens ++ rest))))) =
      .ok (o, rest) := by
  simp [operationAfter]

@[simp]
theorem operation_tokens (o : Operation) : operation (o.tokens ++ rest) = .ok (o, rest) := by
  simp [operation, Operation.tokens]

@[simp]
theorem classItem_tokens (c : ClassItem) : classItem (c.tokens ++ rest) = .ok (c, rest) := by
  cases c with
  | member d =>
    have hidempotent : opt .kwIdempotent (token .kwIdempotent) (d.type.tokens ++
        (d.name.tokens ++ (optTokens Initial.tokens d.initial ++ (d.semicolon.tokens ++ rest)))) =
        .ok (none, d.type.tokens ++
          (d.name.tokens ++ (optTokens Initial.tokens d.initial ++
            (d.semicolon.tokens ++ rest)))) :=
      opt_none (by simp)
    simp [classItem, ClassItem.tokens, DataMember.tokens, hidempotent]
  | operation o => simp [classItem, ClassItem.tokens, Operation.tokens]

theorem body_tokens {p : Parser α} {f : α → List Token} (b : Body α)
    (hp : ∀ a rest, p (f a ++ rest) = .ok (a, rest))
    (hs : ∀ a rest, startsWith (· != .rightBrace) (f a ++ rest))
    (h : startsWith (· == .semicolon) rest = false) :
    body p (b.tokens f ++ rest) = .ok (b, rest) := by
  have hitems : repeatWhile (· != .rightBrace) p (b.items.flatMap f ++
      (b.right.tokens ++ (optTokens Tok.tokens b.semicolon ++ rest))) =
      .ok (b.items, b.right.tokens ++ (optTokens Tok.tokens b.semicolon ++ rest)) :=
    repeatWhile_tokens (fun _ => True) (fun a _ rest _ => hp a rest)
      (fun a _ rest => ⟨hs a rest, trivial⟩) trivial rfl
  simp [body, Body.tokens, hitems, h]

theorem startsWith_type {m : Option Metadata} {t : MemberType} :
    startsWith (· != .rightBrace) (optTokens Metadata.tokens m ++ (t.tokens ++ rest)) := by
  obtain ⟨_ | tag, ⟨⟨_ | lead, first, more⟩, question, star⟩⟩ := t <;> cases m <;> rfl

theorem startsWith_dataMember (d : DataMember) :
    startsWith (· != .rightBrace) (d.tokens ++ rest) := by
  rw [DataMember.tokens]
  simp only [List.append_assoc]
  exact startsWith_type

theorem startsWith_operation (o : Operation) :
    startsWith (· != .rightBrace) (o.tokens ++ rest) := by
  obtain ⟨m, _ | idempotent, type, name, left, ps, right, throws, semicolon⟩ := o
  · simp only [Operation.tokens, optTokens, List.append_nil, List.append_assoc]
    exact startsWith_type
  · cases m <;> rfl

theorem startsWith_classItem (c : ClassItem) :
    startsWith (· != .rightBrace) (c.tokens ++ rest) := by
  cases c with
  | member d => exact startsWith_dataMember d
  | operation o => exact startsWith_operation o

@[simp]
theorem dataMembers_tokens (b : Body DataMember) (h : startsWith (· == .semicolon) rest = false) :
    body dataMember (b.tokens DataMember.tokens ++ rest) = .ok (b, rest) :=
  body_tokens b (fun d _ => dataMember_tokens d) (fun d _ => startsWith_dataMember d) h

@[simp]
theorem operations_tokens (b : Body Operation) (h : startsWith (· == .semicolon) rest = false) :
    body operation (b.tokens Operation.tokens ++ rest) = .ok (b, rest) :=
  body_tokens b (fun o _ => operation_tokens o) (fun o _ => startsWith_operation o) h

@[simp]
theorem classItems_tokens (b : Body ClassItem) (h : startsWith (· == .semicolon) rest = false) :
    body classItem (b.tokens ClassItem.tokens ++ rest) = .ok (b, rest) :=
  body_tokens b (fun c _ => classItem_tokens c) (fun c _ => startsWith_classItem c) h

@[simp]
theorem enumerator_tokens (e : Enumerator) (h : startsWith (· == .equal) rest = false) :
    enumerator (e.tokens ++ rest) = .ok (e, rest) := by
  have hvalue : opt .equal enumValue (optTokens EnumValue.tokens e.value ++ rest) =
      .ok (e.value, rest) :=
    opt_tokens (by simp [enumValue, EnumValue.tokens]) (fun _ _ => rfl) h
  simp [enumerator, Enumerator.tokens, hvalue]

theorem enumeratorsAtMost_tokens {more : List (Tok .comma × Enumerator)}
    (trailing : Option (Tok .comma)) (right : Tok .rightBrace) (rest : List Token) {n : Nat}
    (hn : more.length < n) :
    enumeratorsAtMost n (tailTokens Enumerator.tokens more ++
      (optTokens Tok.tokens trailing ++ (right.tokens ++ rest))) =
      .ok ((more, trailing), right.tokens ++ rest) := by
  induction more generalizing n with
  | nil =>
    cases n with
    | zero => cases hn
    | succ n => cases trailing <;> simp [enumeratorsAtMost, tailTokens, optTokens, opt_apply]
  | cons x more ih =>
    obtain ⟨comma, e⟩ := x
    cases n with
    | zero => cases hn
    | succ n =>
      have hrec := ih (Nat.lt_of_succ_lt_succ hn)
      simp [enumeratorsAtMost, tailTokens, opt_apply, hrec]

theorem length_le_tailTokens {f : α → List Token} (xs : List (Tok kind × α)) :
    xs.length ≤ (tailTokens f xs).length := by
  induction xs with
  | nil => exact Nat.le_refl _
  | cons x xs ih =>
    simp only [tailTokens, Tok.tokens, List.length_append, List.length_cons, List.length_nil]
    omega

@[simp]
theorem enumeratorList_tokens (l : EnumeratorList) (right : Tok .rightBrace) :
    enumeratorList (l.tokens ++ (right.tokens ++ rest)) = .ok (l, right.tokens ++ rest) := by
  obtain ⟨first, more, trailing⟩ := l
  have hlength := length_le_tailTokens (f := Enumerator.tokens) more
  have hfuel : more.length < (tailTokens Enumerator.tokens more ++
      (optTokens Tok.tokens trailing ++ (right.tokens ++ rest))).length := by
    simp only [List.length_append, Tok.tokens, List.length_cons]
    omega
  have hmore := enumeratorsAtMost_tokens trailing right rest hfuel
  have hstart : startsWith (· == .equal) (tailTokens Enumerator.tokens more ++
      (optTokens Tok.tokens trailing ++ (right.tokens ++ rest))) = false := by simp
  simp only [enumeratorList, EnumeratorList.tokens, List.append_assoc, bind_apply,
    enumerator_tokens first hstart, ok_bind, hmore, pure_apply]

@[simp]
theorem enumerators_tokens (l : Option EnumeratorList) (right : Tok .rightBrace) :
    enumerators (optTokens EnumeratorList.tokens l ++ (right.tokens ++ rest)) =
      .ok (l, right.tokens ++ rest) := by
  cases l with
  | none => simp [enumerators, optTokens]
  | some l => simp [enumerators, optTokens]

variable {modifiers : Modifiers}

theorem interface_tokens (d : Interface) (h : startsWith (· == .semicolon) rest = false) :
    interface d.modifiers (d.keyword.tokens ++ (d.name.tokens ++ (optTokens NameList.tokens d.bases
      ++ (d.body.tokens Operation.tokens ++ rest)))) = .ok (.interface d, rest) := by
  have hbody : startsWith (· == .semicolon) (optTokens NameList.tokens d.bases ++
      (d.body.tokens Operation.tokens ++ rest)) = false := by simp
  simp [interface, h]

theorem interfaceForward_tokens (d : Forward .kwInterface) :
    interface d.modifiers (d.keyword.tokens ++ (d.name.tokens ++ (d.semicolon.tokens ++ rest))) =
      .ok (.interfaceForward d, rest) := by
  simp [interface]

theorem class_tokens (d : Class) (h : startsWith (· == .semicolon) rest = false) :
    class' d.modifiers (d.keyword.tokens ++ (d.name.tokens ++
      (optTokens ParenInt.tokens d.compactId ++ (optTokens Base.tokens d.base ++
        (optTokens NameList.tokens d.implements ++ (d.body.tokens ClassItem.tokens ++ rest)))))) =
      .ok (.class d, rest) := by
  simp [class', h]

theorem classForward_tokens (d : Forward .kwClass) :
    class' d.modifiers (d.keyword.tokens ++ (d.name.tokens ++ (d.semicolon.tokens ++ rest))) =
      .ok (.classForward d, rest) := by
  simp [class']

theorem exception_tokens (d : Exception) (h : startsWith (· == .semicolon) rest = false) :
    exception d.modifiers (d.keyword.tokens ++ (d.name.tokens ++ (optTokens Base.tokens d.base ++
      (d.body.tokens DataMember.tokens ++ rest)))) = .ok (d, rest) := by
  simp [exception, h]

theorem struct_tokens (d : Struct) (h : startsWith (· == .semicolon) rest = false) :
    struct d.modifiers (d.keyword.tokens ++ (d.name.tokens ++
      (d.body.tokens DataMember.tokens ++ rest))) = .ok (d, rest) := by
  simp [struct, h]

theorem enum_tokens (d : Enum) (h : startsWith (· == .semicolon) rest = false) :
    enum d.modifiers (d.keyword.tokens ++ (d.name.tokens ++ (d.left.tokens ++
      (optTokens EnumeratorList.tokens d.enumerators ++ (d.right.tokens ++
        (optTokens Tok.tokens d.semicolon ++ rest)))))) = .ok (d, rest) := by
  simp [enum, h]

theorem sequence_tokens (rest : List Token) (d : Sequence) :
    sequence d.modifiers (d.keyword.tokens ++ (d.left.tokens ++ (d.element.tokens ++
      (d.right.tokens ++ (d.name.tokens ++ (d.semicolon.tokens ++ rest)))))) = .ok (d, rest) := by
  simp [sequence]

theorem dictionary_tokens (rest : List Token) (d : Dictionary) :
    dictionary d.modifiers (d.keyword.tokens ++ (d.left.tokens ++ (d.key.tokens ++
      (d.comma.tokens ++ (d.value.tokens ++ (d.right.tokens ++ (d.name.tokens ++
        (d.semicolon.tokens ++ rest)))))))) = .ok (d, rest) := by
  simp [dictionary]

theorem const_tokens (rest : List Token) (d : Const) :
    const d.metadata (d.keyword.tokens ++ (d.type.tokens ++ (d.name.tokens ++
      (d.initial.tokens ++ (d.semicolon.tokens ++ rest))))) = .ok (d, rest) := by
  simp [const]

@[simp]
theorem startsWith_modifiers (m : Modifiers) (keyword : Tok kind) :
    startsWith more (m.tokens ++ (keyword.tokens ++ rest)) =
      if m.metadata.isSome then more .leftBracket
      else if m.isLocal.isSome then more .kwLocal else more kind := by
  simp [Modifiers.tokens]

theorem startsWith_definition (rest : List Token) (d : Definition) :
    startsWith (· != .rightBrace) (d.tokens ++ rest) ∧
      startsWith (· == .semicolon) (d.tokens ++ rest) = false := by
  cases d with
  | module d =>
    cases d
    simp [Definition.tokens, Module.tokens]
  | interface d => simp [Definition.tokens, Interface.tokens]
  | interfaceForward d => simp [Definition.tokens, Forward.tokens]
  | «class» d => simp [Definition.tokens, Class.tokens]
  | classForward d => simp [Definition.tokens, Forward.tokens]
  | exception d => simp [Definition.tokens, Exception.tokens]
  | struct d => simp [Definition.tokens, Struct.tokens]
  | enum d => simp [Definition.tokens, Enum.tokens]
  | sequence d => simp [Definition.tokens, Sequence.tokens]
  | dictionary d => simp [Definition.tokens, Dictionary.tokens]
  | const d => simp [Definition.tokens, Const.tokens]

theorem module_tokens (m : Option Metadata) (keyword : Tok .kwModule) (name : ScopedName)
    (left : Tok .leftBrace) {definitions : List Definition} (right : Tok .rightBrace)
    (semicolon : Option (Tok .semicolon)) {p : Parser Definition}
    (hp : ∀ d ∈ definitions, ∀ rest, startsWith (· == .semicolon) rest = false →
      p (d.tokens ++ rest) = .ok (d, rest))
    (h : startsWith (· == .semicolon) rest = false) :
    module p m (keyword.tokens ++ (name.tokens ++ (left.tokens ++ (definitionsTokens definitions ++
      (right.tokens ++ (optTokens Tok.tokens semicolon ++ rest)))))) =
      .ok (.mk m keyword name left definitions right semicolon, rest) := by
  -- No definition begins with a closing brace, so the items go on up to it.
  have hitems : repeatWhile (· != .rightBrace) p (definitionsTokens definitions ++
      (right.tokens ++ (optTokens Tok.tokens semicolon ++ rest))) =
      .ok (definitions, right.tokens ++ (optTokens Tok.tokens semicolon ++ rest)) := by
    rw [definitionsTokens_eq_flatMap]
    exact repeatWhile_tokens (fun rest => startsWith (· == .semicolon) rest = false) hp
      (fun d _ rest => startsWith_definition rest d) (by simp) (by simp)
  simp [module, hitems, h]

theorem length_le_of_mem {definitions : List Definition} {d : Definition} (h : d ∈ definitions) :
    d.tokens.length ≤ (definitionsTokens definitions).length := by
  obtain ⟨before, after, rfl⟩ := List.append_of_mem h
  simp only [definitionsTokens_eq_flatMap, List.flatMap_append, List.flatMap_cons,
    List.length_append]
  omega

theorem definition_tokens {n : Nat} (d : Definition) (hn : d.tokens.length ≤ n)
    (h : startsWith (· == .semicolon) rest = false) :
    definition n (d.tokens ++ rest) = .ok (d, rest) := by
  -- Each module inside another one has a token of its own, so the fuel is enough.
  induction n generalizing d rest with
  | zero =>
    have hnil : d.tokens = [] := List.eq_nil_of_length_eq_zero (Nat.le_zero.1 hn)
    have hstart := (startsWith_definition [] d).1
    rw [hnil] at hstart
    cases hstart
  | succ n ih =>
    cases d with
    | module d =>
      obtain ⟨m, keyword, name, left, definitions, right, semicolon⟩ := d
      have hinner : ∀ d ∈ definitions, ∀ rest, startsWith (· == .semicolon) rest = false →
          definition n (d.tokens ++ rest) = .ok (d, rest) := by
        intro d hd rest hrest
        have hle := length_le_of_mem hd
        simp only [Definition.tokens, Module.tokens, List.length_append, Tok.tokens,
          List.length_cons] at hn
        exact ih d (by omega) hrest
      have hmodule := module_tokens m keyword name left right semicolon hinner h
      have hlocal : opt .kwLocal (token .kwLocal) (keyword.tokens ++ (name.tokens ++ (left.tokens ++
          (definitionsTokens definitions ++ (right.tokens ++
            (optTokens Tok.tokens semicolon ++ rest)))))) = .ok (none, _) := opt_none (by simp)
      simp [definition, Definition.tokens, Module.tokens, hlocal, hmodule]
    | interface d =>
      rw [← interface_tokens d h]
      simp [definition, Definition.tokens, Interface.tokens, Modifiers.tokens]
    | interfaceForward d =>
      rw [← interfaceForward_tokens d]
      simp [definition, Definition.tokens, Forward.tokens, Modifiers.tokens]
    | «class» d =>
      rw [← class_tokens d h]
      simp [definition, Definition.tokens, Class.tokens, Modifiers.tokens]
    | classForward d =>
      rw [← classForward_tokens d]
      simp [definition, Definition.tokens, Forward.tokens, Modifiers.tokens]
    | exception d =>
      have hd := exception_tokens d h
      simp [definition, Definition.tokens, Exception.tokens, Modifiers.tokens, hd]
    | struct d =>
      have hd := struct_tokens d h
      simp [definition, Definition.tokens, Struct.tokens, Modifiers.tokens, hd]
    | enum d =>
      have hd := enum_tokens d h
      simp [definition, Definition.tokens, Enum.tokens, Modifiers.tokens, hd]
    | sequence d =>
      have hd := sequence_tokens rest d
      simp [definition, Definition.tokens, Sequence.tokens, Modifiers.tokens, hd]
    | dictionary d =>
      have hd := dictionary_tokens rest d
      simp [definition, Definition.tokens, Dictionary.tokens, Modifiers.tokens, hd]
    | const d =>
      have hd := const_tokens rest d
      have hlocal : opt .kwLocal (token .kwLocal) (d.keyword.tokens ++ (d.type.tokens ++
          (d.name.tokens ++ (d.initial.tokens ++ (d.semicolon.tokens ++ rest))))) =
          .ok (none, _) := opt_none (by simp)
      simp [definition, Definition.tokens, Const.tokens, hlocal, hd]

theorem topModule_tokens (m : Option Metadata) (keyword : Tok .kwModule) (name : ScopedName)
    (left : Tok .leftBrace) (definitions : List Definition) (right : Tok .rightBrace)
    (semicolon : Option (Tok .semicolon)) (h : startsWith (· == .semicolon) rest = false) :
    topModule m (keyword.tokens ++ (name.tokens ++ (left.tokens ++ (definitionsTokens definitions ++
      (right.tokens ++ (optTokens Tok.tokens semicolon ++ rest)))))) =
      .ok (.mk m keyword name left definitions right semicolon, rest) := by
  refine module_tokens _ _ _ _ _ _ (fun d hd rest hrest => definition_tokens d ?_ hrest) h
  have hle := length_le_of_mem hd
  simp only [List.length_append]
  omega

@[simp]
theorem topItem_tokens (item : TopItem) (h : startsWith (· == .semicolon) rest = false) :
    topItem (item.tokens ++ rest) = .ok (item, rest) := by
  cases item with
  | pragmaOnce t => simp [topItem, TopItem.tokens]
  | includeFile t => simp [topItem, TopItem.tokens]
  | metadata m =>
    obtain ⟨left, inner, right⟩ := m
    simp [topItem, TopItem.tokens, FileMetadata.tokens]
  | module d =>
    obtain ⟨m, keyword, name, left, definitions, right, semicolon⟩ := d
    have hmodule := topModule_tokens m keyword name left definitions right semicolon h
    cases m with
    | none => simp [topItem, TopItem.tokens, Module.tokens, hmodule]
    | some m => simp [topItem, TopItem.tokens, Module.tokens, Metadata.tokens, hmodule]

theorem startsWith_topItem (rest : List Token) (item : TopItem) :
    startsWith (fun _ => true) (item.tokens ++ rest) ∧
      startsWith (· == .semicolon) (item.tokens ++ rest) = false := by
  cases item with
  | pragmaOnce t => simp [TopItem.tokens]
  | includeFile t => simp [TopItem.tokens]
  | metadata m => simp [TopItem.tokens, FileMetadata.tokens]
  | module d =>
    cases d
    simp [TopItem.tokens, Module.tokens]

theorem file_tokens (f : File) : file f.tokens = .ok (f, []) := by
  have h : repeatWhile (fun _ => true) topItem (f.flatMap TopItem.tokens ++ []) = .ok (f, []) :=
    repeatWhile_tokens (fun rest => startsWith (· == .semicolon) rest = false)
      (fun item _ _ hrest => topItem_tokens item hrest)
      (fun item _ rest => startsWith_topItem rest item) (by simp) (by simp)
  rwa [List.append_nil] at h

end Parser

end SliceIdl.Grammar
