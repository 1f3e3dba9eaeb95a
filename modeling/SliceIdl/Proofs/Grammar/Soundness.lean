import SliceIdl.Proofs.Grammar.Combinators

/-!
# What the parser reads has the tokens that it took

For every part of the grammar: if its parser gives a tree, then the tokens of the tree and what is
left are the tokens that it was given. Where a part is read in two steps, the second one is given
what the first one has read.
-/

set_option autoImplicit false

namespace SliceIdl.Grammar.Parser

variable {α : Type} {kind : TokenKind} {ts rest : List Token}

theorem stringList_sound : Sound stringList StringList.tokens := by
  intro ts s rest h
  simp only [stringList, bind_eq_ok, pure_apply, Except.ok.injEq, Prod.mk.injEq] at h
  obtain ⟨first, _, h₁, more, _, h₂, rfl, rfl⟩ := h
  rw [token_sound h₁, token_sound.tail h₂, StringList.tokens, List.append_assoc]

theorem metadataAfter_sound {left : Tok .leftBracket} {m : Metadata}
    (h : metadataAfter left ts = .ok (m, rest)) : left.tokens ++ ts = m.tokens ++ rest := by
  simp only [metadataAfter, bind_eq_ok, pure_apply, Except.ok.injEq, Prod.mk.injEq] at h
  obtain ⟨strings, _, h₁, right, _, h₂, rfl, rfl⟩ := h
  simp [stringList_sound h₁, token_sound h₂, Metadata.tokens]

theorem metadata_sound : Sound metadata Metadata.tokens := by
  intro ts m rest h
  simp only [metadata, bind_eq_ok] at h
  obtain ⟨left, _, h₁, h₂⟩ := h
  rw [token_sound h₁, metadataAfter_sound h₂]

theorem scopedName_sound : Sound scopedName ScopedName.tokens := by
  intro ts n rest h
  simp only [scopedName, bind_eq_ok, pure_apply, Except.ok.injEq, Prod.mk.injEq] at h
  obtain ⟨lead, _, h₁, first, _, h₂, more, _, h₃, rfl, rfl⟩ := h
  simp [token_sound.opt h₁, token_sound h₂, token_sound.tail h₃, ScopedName.tokens]

theorem nameList_sound : Sound (nameList kind) NameList.tokens := by
  intro ts n rest h
  simp only [nameList, bind_eq_ok, pure_apply, Except.ok.injEq, Prod.mk.injEq] at h
  obtain ⟨keyword, _, h₁, first, _, h₂, more, _, h₃, rfl, rfl⟩ := h
  simp [token_sound h₁, scopedName_sound h₂, scopedName_sound.tail h₃, NameList.tokens]

theorem base_sound : Sound base Base.tokens := by
  intro ts b rest h
  simp only [base, bind_eq_ok, pure_apply, Except.ok.injEq, Prod.mk.injEq] at h
  obtain ⟨keyword, _, h₁, name, _, h₂, rfl, rfl⟩ := h
  simp [token_sound h₁, scopedName_sound h₂, Base.tokens]

theorem typeName_sound : Sound typeName TypeName.tokens := by
  intro ts t rest h
  simp only [typeName, bind_eq_ok, pure_apply, Except.ok.injEq, Prod.mk.injEq] at h
  obtain ⟨name, _, h₁, question, _, h₂, star, _, h₃, rfl, rfl⟩ := h
  simp [scopedName_sound h₁, token_sound.opt h₂, token_sound.opt h₃, TypeName.tokens]

theorem annotatedType_sound : Sound annotatedType AnnotatedType.tokens := by
  intro ts t rest h
  simp only [annotatedType, bind_eq_ok, pure_apply, Except.ok.injEq, Prod.mk.injEq] at h
  obtain ⟨m, _, h₁, type, _, h₂, rfl, rfl⟩ := h
  simp [metadata_sound.opt h₁, typeName_sound h₂, AnnotatedType.tokens]

theorem parenInt_sound : Sound parenInt ParenInt.tokens := by
  intro ts p rest h
  simp only [parenInt, bind_eq_ok, pure_apply, Except.ok.injEq, Prod.mk.injEq] at h
  obtain ⟨left, _, h₁, value, _, h₂, right, _, h₃, rfl, rfl⟩ := h
  simp [token_sound h₁, token_sound h₂, token_sound h₃, ParenInt.tokens]

theorem optionalTag_sound : Sound optionalTag OptionalTag.tokens := by
  intro ts t rest h
  simp only [optionalTag, bind_eq_ok, pure_apply, Except.ok.injEq, Prod.mk.injEq] at h
  obtain ⟨keyword, _, h₁, number, _, h₂, rfl, rfl⟩ := h
  simp [token_sound h₁, parenInt_sound h₂, OptionalTag.tokens]

theorem memberType_sound : Sound memberType MemberType.tokens := by
  intro ts t rest h
  simp only [memberType, bind_eq_ok, pure_apply, Except.ok.injEq, Prod.mk.injEq] at h
  obtain ⟨tag, _, h₁, type, _, h₂, rfl, rfl⟩ := h
  simp [optionalTag_sound.opt h₁, typeName_sound h₂, MemberType.tokens]

theorem constValue_sound : Sound constValue ConstValue.tokens := by
  intro ts v rest h
  simp only [constValue, bind_eq_ok] at h
  obtain ⟨n, _, hn, h⟩ := h
  obtain ⟨-, rfl⟩ := next_eq_ok.1 hn
  split at h
  · obtain ⟨t, ht, rfl⟩ := map_eq_ok.1 h
    exact token_sound ht
  · obtain ⟨t, ht, rfl⟩ := map_eq_ok.1 h
    exact token_sound ht
  · obtain ⟨t, ht, rfl⟩ := map_eq_ok.1 h
    exact token_sound ht
  · obtain ⟨t, ht, rfl⟩ := map_eq_ok.1 h
    exact token_sound ht
  · obtain ⟨t, ht, rfl⟩ := map_eq_ok.1 h
    exact token_sound ht
  · obtain ⟨n, hn, rfl⟩ := map_eq_ok.1 h
    exact scopedName_sound hn

theorem initial_sound : Sound initial Initial.tokens := by
  intro ts i rest h
  simp only [initial, bind_eq_ok, pure_apply, Except.ok.injEq, Prod.mk.injEq] at h
  obtain ⟨equal, _, h₁, value, _, h₂, rfl, rfl⟩ := h
  simp [token_sound h₁, constValue_sound h₂, Initial.tokens]

theorem dataMemberAfter_sound {m : Option Metadata} {type : MemberType} {name : Tok .ident}
    {d : DataMember} (h : dataMemberAfter m type name ts = .ok (d, rest)) :
    optTokens Metadata.tokens m ++ type.tokens ++ name.tokens ++ ts = d.tokens ++ rest := by
  simp only [dataMemberAfter, bind_eq_ok, pure_apply, Except.ok.injEq, Prod.mk.injEq] at h
  obtain ⟨value, _, h₁, semicolon, _, h₂, rfl, rfl⟩ := h
  simp [initial_sound.opt h₁, token_sound h₂, DataMember.tokens]

theorem dataMember_sound : Sound dataMember DataMember.tokens := by
  intro ts d rest h
  simp only [dataMember, bind_eq_ok] at h
  obtain ⟨m, _, h₁, type, _, h₂, name, _, h₃, h₄⟩ := h
  rw [← dataMemberAfter_sound h₄]
  simp [metadata_sound.opt h₁, memberType_sound h₂, token_sound h₃]

theorem param_sound : Sound param Param.tokens := by
  intro ts p rest h
  simp only [param, bind_eq_ok, pure_apply, Except.ok.injEq, Prod.mk.injEq] at h
  obtain ⟨m, _, h₁, out, _, h₂, type, _, h₃, name, _, h₄, rfl, rfl⟩ := h
  simp [metadata_sound.opt h₁, token_sound.opt h₂, memberType_sound h₃, token_sound h₄,
    Param.tokens]

theorem paramList_sound : Sound paramList ParamList.tokens := by
  intro ts p rest h
  simp only [paramList, bind_eq_ok, pure_apply, Except.ok.injEq, Prod.mk.injEq] at h
  obtain ⟨first, _, h₁, more, _, h₂, rfl, rfl⟩ := h
  simp [param_sound h₁, param_sound.tail h₂, ParamList.tokens]

theorem params_sound : Sound params (optTokens ParamList.tokens) := by
  intro ts p rest h
  obtain ⟨next, _, hnext, h⟩ := bind_eq_ok.1 h
  obtain ⟨-, rfl⟩ := next_eq_ok.1 hnext
  rw [ite_apply] at h
  split at h
  · cases h
    rfl
  · obtain ⟨l, hl, rfl⟩ := map_eq_ok.1 h
    exact paramList_sound hl

theorem operationAfter_sound {m : Option Metadata} {idempotent : Option (Tok .kwIdempotent)}
    {type : MemberType} {name : Tok .ident} {o : Operation}
    (h : operationAfter m idempotent type name ts = .ok (o, rest)) :
    optTokens Metadata.tokens m ++ optTokens Tok.tokens idempotent ++ type.tokens ++ name.tokens
      ++ ts = o.tokens ++ rest := by
  simp only [operationAfter, bind_eq_ok, pure_apply, Except.ok.injEq, Prod.mk.injEq] at h
  obtain ⟨left, _, h₁, ps, _, h₂, right, _, h₃, throws, _, h₄, semicolon, _, h₅, rfl, rfl⟩ := h
  simp [token_sound h₁, params_sound h₂, token_sound h₃, nameList_sound.opt h₄, token_sound h₅,
    Operation.tokens]

theorem operation_sound : Sound operation Operation.tokens := by
  intro ts o rest h
  simp only [operation, bind_eq_ok] at h
  obtain ⟨m, _, h₁, idempotent, _, h₂, type, _, h₃, name, _, h₄, h₅⟩ := h
  rw [← operationAfter_sound h₅]
  simp [metadata_sound.opt h₁, token_sound.opt h₂, memberType_sound h₃, token_sound h₄]

theorem classItem_sound : Sound classItem ClassItem.tokens := by
  intro ts c rest h
  simp only [classItem, bind_eq_ok] at h
  obtain ⟨m, _, h₁, idempotent, _, h₂, type, _, h₃, name, _, h₄, next, _, h₅, h₆⟩ := h
  obtain ⟨-, rfl⟩ := next_eq_ok.1 h₅
  rw [ite_apply] at h₆
  split at h₆
  · obtain ⟨o, ho, rfl⟩ := map_eq_ok.1 h₆
    rw [ClassItem.tokens, ← operationAfter_sound ho]
    simp [metadata_sound.opt h₁, token_sound.opt h₂, memberType_sound h₃, token_sound h₄]
  · next hn =>
    obtain ⟨d, hd, rfl⟩ := map_eq_ok.1 h₆
    have hnone : idempotent = none := by
      cases idempotent with
      | none => rfl
      | some t => simp at hn
    subst hnone
    rw [ClassItem.tokens, ← dataMemberAfter_sound hd, metadata_sound.opt h₁, token_sound.opt h₂,
      memberType_sound h₃, token_sound h₄]
    simp [optTokens]

theorem body_sound {p : Parser α} {f : α → List Token} (hp : Sound p f) :
    Sound (body p) (Body.tokens f) := by
  intro ts b rest h
  simp only [body, bind_eq_ok, pure_apply, Except.ok.injEq, Prod.mk.injEq] at h
  obtain ⟨left, _, h₁, items, _, h₂, right, _, h₃, semicolon, _, h₄, rfl, rfl⟩ := h
  simp [token_sound h₁, hp.repeatWhile h₂, token_sound h₃, token_sound.opt h₄, Body.tokens]

variable {modifiers : Modifiers} {d : Definition}

theorem interface_sound (h : interface modifiers ts = .ok (d, rest)) :
    modifiers.tokens ++ ts = d.tokens ++ rest := by
  simp only [interface, bind_eq_ok] at h
  obtain ⟨keyword, _, h₁, name, _, h₂, next, _, h₃, h₄⟩ := h
  obtain ⟨-, rfl⟩ := next_eq_ok.1 h₃
  rw [ite_apply] at h₄
  split at h₄
  · simp only [bind_eq_ok, pure_apply, Except.ok.injEq, Prod.mk.injEq] at h₄
    obtain ⟨semicolon, _, h₅, rfl, rfl⟩ := h₄
    simp [token_sound h₁, token_sound h₂, token_sound h₅, Definition.tokens, Forward.tokens]
  · simp only [bind_eq_ok, pure_apply, Except.ok.injEq, Prod.mk.injEq] at h₄
    obtain ⟨bases, _, h₅, b, _, h₆, rfl, rfl⟩ := h₄
    simp [token_sound h₁, token_sound h₂, nameList_sound.opt h₅, body_sound operation_sound h₆,
      Definition.tokens, Interface.tokens]

theorem class'_sound (h : class' modifiers ts = .ok (d, rest)) :
    modifiers.tokens ++ ts = d.tokens ++ rest := by
  simp only [class', bind_eq_ok] at h
  obtain ⟨keyword, _, h₁, name, _, h₂, next, _, h₃, h₄⟩ := h
  obtain ⟨-, rfl⟩ := next_eq_ok.1 h₃
  rw [ite_apply] at h₄
  split at h₄
  · simp only [bind_eq_ok, pure_apply, Except.ok.injEq, Prod.mk.injEq] at h₄
    obtain ⟨semicolon, _, h₅, rfl, rfl⟩ := h₄
    simp [token_sound h₁, token_sound h₂, token_sound h₅, Definition.tokens, Forward.tokens]
  · simp only [bind_eq_ok, pure_apply, Except.ok.injEq, Prod.mk.injEq] at h₄
    obtain ⟨compactId, _, h₅, base, _, h₆, implements, _, h₇, b, _, h₈, rfl, rfl⟩ := h₄
    simp [token_sound h₁, token_sound h₂, parenInt_sound.opt h₅, base_sound.opt h₆,
      nameList_sound.opt h₇, body_sound classItem_sound h₈, Definition.tokens, Class.tokens]

theorem exception_sound {d : Exception} (h : exception modifiers ts = .ok (d, rest)) :
    modifiers.tokens ++ ts = d.tokens ++ rest := by
  simp only [exception, bind_eq_ok, pure_apply, Except.ok.injEq, Prod.mk.injEq] at h
  obtain ⟨keyword, _, h₁, name, _, h₂, base, _, h₃, b, _, h₄, rfl, rfl⟩ := h
  simp [token_sound h₁, token_sound h₂, base_sound.opt h₃, body_sound dataMember_sound h₄,
    Exception.tokens]

theorem struct_sound {d : Struct} (h : struct modifiers ts = .ok (d, rest)) :
    modifiers.tokens ++ ts = d.tokens ++ rest := by
  simp only [struct, bind_eq_ok, pure_apply, Except.ok.injEq, Prod.mk.injEq] at h
  obtain ⟨keyword, _, h₁, name, _, h₂, b, _, h₃, rfl, rfl⟩ := h
  simp [token_sound h₁, token_sound h₂, body_sound dataMember_sound h₃, Struct.tokens]

theorem enumValue_sound : Sound enumValue EnumValue.tokens := by
  intro ts v rest h
  simp only [enumValue, bind_eq_ok, pure_apply, Except.ok.injEq, Prod.mk.injEq] at h
  obtain ⟨equal, _, h₁, value, _, h₂, rfl, rfl⟩ := h
  simp [token_sound h₁, token_sound h₂, EnumValue.tokens]

theorem enumerator_sound : Sound enumerator Enumerator.tokens := by
  intro ts e rest h
  simp only [enumerator, bind_eq_ok, pure_apply, Except.ok.injEq, Prod.mk.injEq] at h
  obtain ⟨name, _, h₁, value, _, h₂, rfl, rfl⟩ := h
  simp [token_sound h₁, enumValue_sound.opt h₂, Enumerator.tokens]

theorem enumeratorsAtMost_sound (n : Nat) : Sound (enumeratorsAtMost n) fun r =>
    tailTokens Enumerator.tokens r.1 ++ optTokens Tok.tokens r.2 := by
  induction n with
  | zero =>
    intro ts r rest h
    cases h
    rfl
  | succ n ih =>
    intro ts r rest h
    simp only [enumeratorsAtMost] at h
    obtain ⟨comma, _, h₁, h₂⟩ := bind_eq_ok.1 h
    have hcomma := token_sound.opt h₁
    cases comma with
    | none =>
      cases h₂
      exact hcomma
    | some comma =>
      obtain ⟨next, _, hnext, h₂⟩ := bind_eq_ok.1 h₂
      obtain ⟨-, rfl⟩ := next_eq_ok.1 hnext
      rw [ite_apply] at h₂
      split at h₂
      · obtain ⟨e, _, h₃, h₄⟩ := bind_eq_ok.1 h₂
        obtain ⟨⟨more, trailing⟩, _, h₅, h₆⟩ := bind_eq_ok.1 h₄
        cases h₆
        rw [hcomma, enumerator_sound h₃, ih h₅]
        simp [tailTokens, optTokens]
      · cases h₂
        exact hcomma

theorem enumeratorList_sound : Sound enumeratorList EnumeratorList.tokens := by
  intro ts l rest h
  simp only [enumeratorList, bind_eq_ok, pure_apply, Except.ok.injEq, Prod.mk.injEq] at h
  obtain ⟨first, _, h₁, ⟨more, trailing⟩, _, h₂, rfl, rfl⟩ := h
  rw [enumerator_sound h₁, enumeratorsAtMost_sound _ h₂, EnumeratorList.tokens]
  simp

theorem enumerators_sound : Sound enumerators (optTokens EnumeratorList.tokens) := by
  intro ts l rest h
  obtain ⟨next, _, hnext, h⟩ := bind_eq_ok.1 h
  obtain ⟨-, rfl⟩ := next_eq_ok.1 hnext
  rw [ite_apply] at h
  split at h
  · cases h
    rfl
  · obtain ⟨l, hl, rfl⟩ := map_eq_ok.1 h
    exact enumeratorList_sound hl

theorem enum_sound {d : Enum} (h : enum modifiers ts = .ok (d, rest)) :
    modifiers.tokens ++ ts = d.tokens ++ rest := by
  simp only [enum, bind_eq_ok, pure_apply, Except.ok.injEq, Prod.mk.injEq] at h
  obtain ⟨keyword, _, h₁, name, _, h₂, left, _, h₃, es, _, h₄, right, _, h₅, semicolon, _, h₆,
    rfl, rfl⟩ := h
  simp [token_sound h₁, token_sound h₂, token_sound h₃, enumerators_sound h₄, token_sound h₅,
    token_sound.opt h₆, Enum.tokens]

theorem sequence_sound {d : Sequence} (h : sequence modifiers ts = .ok (d, rest)) :
    modifiers.tokens ++ ts = d.tokens ++ rest := by
  simp only [sequence, bind_eq_ok, pure_apply, Except.ok.injEq, Prod.mk.injEq] at h
  obtain ⟨keyword, _, h₁, left, _, h₂, element, _, h₃, right, _, h₄, name, _, h₅, semicolon, _, h₆,
    rfl, rfl⟩ := h
  simp [token_sound h₁, token_sound h₂, annotatedType_sound h₃, token_sound h₄, token_sound h₅,
    token_sound h₆, Sequence.tokens]

theorem dictionary_sound {d : Dictionary} (h : dictionary modifiers ts = .ok (d, rest)) :
    modifiers.tokens ++ ts = d.tokens ++ rest := by
  simp only [dictionary, bind_eq_ok, pure_apply, Except.ok.injEq, Prod.mk.injEq] at h
  obtain ⟨keyword, _, h₁, left, _, h₂, key, _, h₃, comma, _, h₄, value, _, h₅, right, _, h₆, name,
    _, h₇, semicolon, _, h₈, rfl, rfl⟩ := h
  simp [token_sound h₁, token_sound h₂, annotatedType_sound h₃, token_sound h₄,
    annotatedType_sound h₅, token_sound h₆, token_sound h₇, token_sound h₈, Dictionary.tokens]

theorem const_sound {m : Option Metadata} {d : Const} (h : const m ts = .ok (d, rest)) :
    optTokens Metadata.tokens m ++ ts = d.tokens ++ rest := by
  simp only [const, bind_eq_ok, pure_apply, Except.ok.injEq, Prod.mk.injEq] at h
  obtain ⟨keyword, _, h₁, type, _, h₂, name, _, h₃, value, _, h₄, semicolon, _, h₅, rfl, rfl⟩ := h
  simp [token_sound h₁, annotatedType_sound h₂, token_sound h₃, initial_sound h₄, token_sound h₅,
    Const.tokens]

theorem module_sound {p : Parser Definition} (hp : Sound p Definition.tokens)
    {m : Option Metadata} {d : Module} (h : module p m ts = .ok (d, rest)) :
    optTokens Metadata.tokens m ++ ts = d.tokens ++ rest := by
  simp only [module, bind_eq_ok, pure_apply, Except.ok.injEq, Prod.mk.injEq] at h
  obtain ⟨keyword, _, h₁, name, _, h₂, left, _, h₃, ds, _, h₄, right, _, h₅, semicolon, _, h₆,
    rfl, rfl⟩ := h
  simp [token_sound h₁, scopedName_sound h₂, token_sound h₃, hp.repeatWhile h₄, token_sound h₅,
    token_sound.opt h₆, Module.tokens, definitionsTokens_eq_flatMap]

theorem definition_sound (n : Nat) : Sound (definition n) Definition.tokens := by
  induction n with
  | zero =>
    intro ts d rest h
    cases h
  | succ n ih =>
    intro ts d rest h
    simp only [definition, bind_eq_ok] at h
    obtain ⟨m, _, h₁, isLocal, ts', h₂, next, _, h₃, h₄⟩ := h
    obtain ⟨-, rfl⟩ := next_eq_ok.1 h₃
    have hmodifiers : ts = Modifiers.tokens ⟨m, isLocal⟩ ++ ts' := by
      rw [metadata_sound.opt h₁, token_sound.opt h₂, Modifiers.tokens, List.append_assoc]
    rw [hmodifiers]
    split at h₄
    · obtain ⟨d, hd, rfl⟩ := map_eq_ok.1 h₄
      rw [Definition.tokens, ← module_sound ih hd]
      simp [Modifiers.tokens, optTokens]
    · obtain ⟨d, hd, rfl⟩ := map_eq_ok.1 h₄
      rw [Definition.tokens, ← const_sound hd]
      simp [Modifiers.tokens, optTokens]
    · exact interface_sound h₄
    · exact class'_sound h₄
    · obtain ⟨d, hd, rfl⟩ := map_eq_ok.1 h₄
      exact exception_sound hd
    · obtain ⟨d, hd, rfl⟩ := map_eq_ok.1 h₄
      exact struct_sound hd
    · obtain ⟨d, hd, rfl⟩ := map_eq_ok.1 h₄
      exact enum_sound hd
    · obtain ⟨d, hd, rfl⟩ := map_eq_ok.1 h₄
      exact sequence_sound hd
    · obtain ⟨d, hd, rfl⟩ := map_eq_ok.1 h₄
      exact dictionary_sound hd
    · cases h₄

theorem topModule_sound {m : Option Metadata} {d : Module} (h : topModule m ts = .ok (d, rest)) :
    optTokens Metadata.tokens m ++ ts = d.tokens ++ rest :=
  module_sound (definition_sound _) h

theorem topItem_sound : Sound topItem TopItem.tokens := by
  intro ts item rest h
  simp only [topItem] at h
  obtain ⟨n, _, hn, h⟩ := bind_eq_ok.1 h
  obtain ⟨-, rfl⟩ := next_eq_ok.1 hn
  split at h
  · obtain ⟨t, ht, rfl⟩ := map_eq_ok.1 h
    exact token_sound ht
  · obtain ⟨t, ht, rfl⟩ := map_eq_ok.1 h
    exact token_sound ht
  · obtain ⟨left, _, h₁, h₂⟩ := bind_eq_ok.1 h
    obtain ⟨next, _, hnext, h₂⟩ := bind_eq_ok.1 h₂
    obtain ⟨-, rfl⟩ := next_eq_ok.1 hnext
    rw [ite_apply] at h₂
    rw [token_sound h₁]
    split at h₂
    · simp only [bind_eq_ok, pure_apply, Except.ok.injEq, Prod.mk.injEq] at h₂
      obtain ⟨inner, _, h₃, right, _, h₄, rfl, rfl⟩ := h₂
      simp [metadata_sound h₃, token_sound h₄, TopItem.tokens, FileMetadata.tokens]
    · obtain ⟨m, _, h₃, h₄⟩ := bind_eq_ok.1 h₂
      obtain ⟨d, hd, rfl⟩ := map_eq_ok.1 h₄
      rw [metadataAfter_sound h₃]
      exact topModule_sound hd
  · obtain ⟨d, hd, rfl⟩ := map_eq_ok.1 h
    exact topModule_sound hd

theorem file_sound : Sound file File.tokens :=
  topItem_sound.repeatWhile

end SliceIdl.Grammar.Parser
