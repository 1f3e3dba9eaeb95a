import SliceIdl.Proofs.Grammar.Completeness
import SliceIdl.Proofs.Grammar.Prediction

/-!
# The parser is predictive

For every part of the grammar: when its parser stops at a token, then what it has taken can be
completed, and no continuation from that token on can be read.
-/

set_option autoImplicit false

namespace SliceIdl.Grammar.Parser

variable {α : Type} {kind : TokenKind} {more : TokenKind → Bool} {ts : List Token}

theorem stringList_predicts : Predicts stringList StringList.tokens :=
  Predictive.token.bind fun first => Predictive.token.tail.bind fun more =>
    .pure (by simp [StringList.tokens])

theorem metadataAfter_predictive (left : Tok .leftBracket) :
    Predictive (metadataAfter left) fun m ts => m.tokens = left.tokens ++ ts :=
  stringList_predicts.bind fun strings => Predictive.token.bind fun right =>
    .pure (by simp [Metadata.tokens])

theorem metadata_predicts : Predicts metadata Metadata.tokens :=
  Predictive.token.bind metadataAfter_predictive

theorem scopedName_predicts : Predicts scopedName ScopedName.tokens :=
  Predictive.token.opt.bind fun lead => Predictive.token.bind fun first =>
    Predictive.token.tail.bind fun more => .pure (by simp [ScopedName.tokens])

theorem nameList_predicts : Predicts (nameList kind) NameList.tokens :=
  Predictive.token.bind fun keyword => scopedName_predicts.bind fun first =>
    scopedName_predicts.tail.bind fun more => .pure (by simp [NameList.tokens])

theorem base_predicts : Predicts base Base.tokens :=
  Predictive.token.bind fun keyword => scopedName_predicts.bind fun name =>
    .pure (by simp [Base.tokens])

theorem typeName_predicts : Predicts typeName TypeName.tokens :=
  scopedName_predicts.bind fun name => Predictive.token.opt.bind fun question =>
    Predictive.token.opt.bind fun star => .pure (by simp [TypeName.tokens])

theorem annotatedType_predicts : Predicts annotatedType AnnotatedType.tokens :=
  metadata_predicts.opt.bind fun m => typeName_predicts.bind fun type =>
    .pure (by simp [AnnotatedType.tokens])

theorem parenInt_predicts : Predicts parenInt ParenInt.tokens :=
  Predictive.token.bind fun left => Predictive.token.bind fun value =>
    Predictive.token.bind fun right => .pure (by simp [ParenInt.tokens])

theorem optionalTag_predicts : Predicts optionalTag OptionalTag.tokens :=
  Predictive.token.bind fun keyword => parenInt_predicts.bind fun number =>
    .pure (by simp [OptionalTag.tokens])

theorem memberType_predicts : Predicts memberType MemberType.tokens :=
  optionalTag_predicts.opt.bind fun tag => typeName_predicts.bind fun type =>
    .pure (by simp [MemberType.tokens])

theorem constValue_predicts : Predicts constValue ConstValue.tokens := by
  refine Predictive.next fun n => ?_
  split
  · exact Predictive.token.map fun _ => rfl
  · exact Predictive.token.map fun _ => rfl
  · exact Predictive.token.map fun _ => rfl
  · exact Predictive.token.map fun _ => rfl
  · exact Predictive.token.map fun _ => rfl
  · exact scopedName_predicts.map fun _ => rfl

theorem initial_predicts : Predicts initial Initial.tokens :=
  Predictive.token.bind fun equal => constValue_predicts.bind fun value =>
    .pure (by simp [Initial.tokens])

theorem dataMemberAfter_predictive (m : Option Metadata) (type : MemberType) (name : Tok .ident) :
    Predictive (dataMemberAfter m type name) fun d ts =>
      d.tokens = optTokens Metadata.tokens m ++ (type.tokens ++ (name.tokens ++ ts)) :=
  initial_predicts.opt.bind fun initial => Predictive.token.bind fun semicolon =>
    .pure (by simp [DataMember.tokens])

theorem dataMember_predicts : Predicts dataMember DataMember.tokens :=
  metadata_predicts.opt.bind fun m => memberType_predicts.bind fun type =>
    Predictive.token.bind fun name => dataMemberAfter_predictive m type name

theorem param_predicts : Predicts param Param.tokens :=
  metadata_predicts.opt.bind fun m => Predictive.token.opt.bind fun out =>
    memberType_predicts.bind fun type => Predictive.token.bind fun name =>
    .pure (by simp [Param.tokens])

theorem paramList_predicts : Predicts paramList ParamList.tokens :=
  param_predicts.bind fun first => param_predicts.tail.bind fun more =>
    .pure (by simp [ParamList.tokens])

theorem params_predicts : Predicts params (optTokens ParamList.tokens) := by
  refine Predictive.next fun n => ?_
  split
  · exact .pure rfl
  · exact paramList_predicts.map fun _ => rfl

theorem operationAfter_predictive (m : Option Metadata) (idempotent : Option (Tok .kwIdempotent))
    (type : MemberType) (name : Tok .ident) :
    Predictive (operationAfter m idempotent type name) fun o ts =>
      o.tokens = optTokens Metadata.tokens m ++ (optTokens Tok.tokens idempotent ++
        (type.tokens ++ (name.tokens ++ ts))) :=
  Predictive.token.bind fun left => params_predicts.bind fun params =>
    Predictive.token.bind fun right => nameList_predicts.opt.bind fun throws =>
    Predictive.token.bind fun semicolon => .pure (by simp [Operation.tokens])

theorem operation_predicts : Predicts operation Operation.tokens :=
  metadata_predicts.opt.bind fun m => Predictive.token.opt.bind fun idempotent =>
    memberType_predicts.bind fun type => Predictive.token.bind fun name =>
    operationAfter_predictive m idempotent type name

theorem classItem_predicts : Predicts classItem ClassItem.tokens := by
  refine metadata_predicts.opt.bind fun m => Predictive.token.opt.bind fun idempotent =>
    memberType_predicts.bind fun type => Predictive.token.bind fun name =>
    Predictive.next fun n => ?_
  split
  · exact (operationAfter_predictive m idempotent type name).map fun _ _ h => h
  · next hn =>
    have hnone : idempotent = none := by
      cases idempotent with
      | none => rfl
      | some t => simp at hn
    subst hnone
    exact (dataMemberAfter_predictive m type name).map fun _ _ h => h

theorem body_predicts {p : Parser α} {f : α → List Token} (hp : Predicts p f)
    (hf : ∀ a, f a ≠ []) : Predicts (body p) (Body.tokens f) :=
  Predictive.token.bind fun left => (hp.repeatWhile hf).bind fun items =>
    Predictive.token.bind fun right => Predictive.token.opt.bind fun semicolon =>
    .pure (by simp [Body.tokens])

theorem ne_nil_of_startsWith (h : ∀ rest, startsWith more (ts ++ rest)) : ts ≠ [] := by
  rintro rfl
  exact absurd (h []) (by simp)

theorem operationBody_predicts : Predicts (body operation) (Body.tokens Operation.tokens) :=
  body_predicts operation_predicts fun o => ne_nil_of_startsWith fun _ => startsWith_operation o

theorem classBody_predicts : Predicts (body classItem) (Body.tokens ClassItem.tokens) :=
  body_predicts classItem_predicts fun c => ne_nil_of_startsWith fun _ => startsWith_classItem c

theorem memberBody_predicts : Predicts (body dataMember) (Body.tokens DataMember.tokens) :=
  body_predicts dataMember_predicts fun d => ne_nil_of_startsWith fun _ => startsWith_dataMember d

variable (modifiers : Modifiers)

theorem interface_predictive :
    Predictive (interface modifiers) fun d ts => d.tokens = modifiers.tokens ++ ts := by
  refine Predictive.token.bind fun keyword => Predictive.token.bind fun name =>
    Predictive.next fun n => ?_
  split
  · exact Predictive.token.bind fun semicolon => .pure (by simp [Definition.tokens, Forward.tokens])
  · exact nameList_predicts.opt.bind fun bases => operationBody_predicts.bind fun body =>
      .pure (by simp [Definition.tokens, Interface.tokens])

theorem class'_predictive :
    Predictive (class' modifiers) fun d ts => d.tokens = modifiers.tokens ++ ts := by
  refine Predictive.token.bind fun keyword => Predictive.token.bind fun name =>
    Predictive.next fun n => ?_
  split
  · exact Predictive.token.bind fun semicolon => .pure (by simp [Definition.tokens, Forward.tokens])
  · exact parenInt_predicts.opt.bind fun compactId => base_predicts.opt.bind fun base =>
      nameList_predicts.opt.bind fun implements => classBody_predicts.bind fun body =>
      .pure (by simp [Definition.tokens, Class.tokens])

theorem exception_predictive :
    Predictive (exception modifiers) fun d ts => d.tokens = modifiers.tokens ++ ts :=
  Predictive.token.bind fun keyword => Predictive.token.bind fun name =>
    base_predicts.opt.bind fun base => memberBody_predicts.bind fun body =>
    .pure (by simp [Exception.tokens])

theorem struct_predictive :
    Predictive (struct modifiers) fun d ts => d.tokens = modifiers.tokens ++ ts :=
  Predictive.token.bind fun keyword => Predictive.token.bind fun name =>
    memberBody_predicts.bind fun body => .pure (by simp [Struct.tokens])

theorem enumValue_predicts : Predicts enumValue EnumValue.tokens :=
  Predictive.token.bind fun equal => Predictive.token.bind fun value =>
    .pure (by simp [EnumValue.tokens])

theorem enumerator_predicts : Predicts enumerator Enumerator.tokens :=
  Predictive.token.bind fun name => enumValue_predicts.opt.bind fun value =>
    .pure (by simp [Enumerator.tokens])

theorem enumeratorsAtMost_predicts (n : Nat) : Predicts (enumeratorsAtMost n) fun r =>
    tailTokens Enumerator.tokens r.1 ++ optTokens Tok.tokens r.2 := by
  induction n with
  | zero => exact .pure rfl
  | succ n ih =>
    refine Predictive.token.opt.bind fun comma => ?_
    cases comma with
    | none => exact .pure rfl
    | some comma =>
      refine Predictive.next fun next => ?_
      split
      · exact enumerator_predicts.bind fun e => ih.bind fun r => .pure (by simp [tailTokens])
      · exact .pure (by simp [tailTokens])

theorem enumeratorsAtMost_bound {l m n : Nat} (hm : l ≤ m) (hn : l ≤ n) :
    AgreeUpTo l (enumeratorsAtMost m) (enumeratorsAtMost n) := by
  induction l generalizing m n with
  | zero =>
    intro ts hts
    obtain rfl : ts = [] := by simpa using hts
    cases m <;> cases n <;> rfl
  | succ l ih =>
    obtain ⟨m, rfl⟩ := Nat.exists_eq_succ_of_ne_zero (Nat.ne_of_gt (Nat.zero_lt_of_lt hm))
    obtain ⟨n, rfl⟩ := Nat.exists_eq_succ_of_ne_zero (Nat.ne_of_gt (Nat.zero_lt_of_lt hn))
    refine (AgreeUpTo.refl _).bind token_sound.opt fun comma => ?_
    cases comma with
    | none => exact .refl _
    | some comma =>
      refine .next fun next => ?_
      split
      · have hrec := ih (Nat.le_of_succ_le_succ hm) (Nat.le_of_succ_le_succ hn)
        exact .bind_taking enumerator_sound (fun _ => List.cons_ne_nil _ _) fun e =>
          hrec.bind (enumeratorsAtMost_sound m) fun r => .refl _
      · exact .refl _

theorem enumeratorList_predicts : Predicts enumeratorList EnumeratorList.tokens := by
  have htail : Predicts (fun ts => enumeratorsAtMost ts.length ts) fun r =>
      tailTokens Enumerator.tokens r.1 ++ optTokens Tok.tokens r.2 :=
    .of_bound enumeratorsAtMost_predicts fun _ ts hn =>
      enumeratorsAtMost_bound (Nat.le_refl _) hn ts (Nat.le_refl _)
  exact enumerator_predicts.bind fun first => htail.bind fun r =>
    .pure (by simp [EnumeratorList.tokens])

theorem enumerators_predicts : Predicts enumerators (optTokens EnumeratorList.tokens) := by
  refine Predictive.next fun n => ?_
  split
  · exact .pure rfl
  · exact enumeratorList_predicts.map fun _ => rfl

theorem enum_predictive :
    Predictive (enum modifiers) fun d ts => d.tokens = modifiers.tokens ++ ts :=
  Predictive.token.bind fun keyword => Predictive.token.bind fun name =>
    Predictive.token.bind fun left => enumerators_predicts.bind fun enumerators =>
    Predictive.token.bind fun right => Predictive.token.opt.bind fun semicolon =>
    .pure (by simp [Enum.tokens])

theorem sequence_predictive :
    Predictive (sequence modifiers) fun d ts => d.tokens = modifiers.tokens ++ ts :=
  Predictive.token.bind fun keyword => Predictive.token.bind fun left =>
    annotatedType_predicts.bind fun element => Predictive.token.bind fun right =>
    Predictive.token.bind fun name => Predictive.token.bind fun semicolon =>
    .pure (by simp [Sequence.tokens])

theorem dictionary_predictive :
    Predictive (dictionary modifiers) fun d ts => d.tokens = modifiers.tokens ++ ts :=
  Predictive.token.bind fun keyword => Predictive.token.bind fun left =>
    annotatedType_predicts.bind fun key => Predictive.token.bind fun comma =>
    annotatedType_predicts.bind fun value => Predictive.token.bind fun right =>
    Predictive.token.bind fun name => Predictive.token.bind fun semicolon =>
    .pure (by simp [Dictionary.tokens])

theorem const_predictive (m : Option Metadata) :
    Predictive (const m) fun d ts => d.tokens = optTokens Metadata.tokens m ++ ts :=
  Predictive.token.bind fun keyword => annotatedType_predicts.bind fun type =>
    Predictive.token.bind fun name => initial_predicts.bind fun initial =>
    Predictive.token.bind fun semicolon => .pure (by simp [Const.tokens])

theorem module_predictive {p : Parser Definition} (hp : Predicts p Definition.tokens)
    (m : Option Metadata) :
    Predictive (module p m) fun d ts => d.tokens = optTokens Metadata.tokens m ++ ts :=
  Predictive.token.bind fun keyword => scopedName_predicts.bind fun name =>
    Predictive.token.bind fun left =>
    (hp.repeatWhile fun d => ne_nil_of_startsWith fun rest => (startsWith_definition rest d).1).bind
      fun definitions =>
    Predictive.token.bind fun right => Predictive.token.opt.bind fun semicolon =>
    .pure (by simp [Module.tokens, definitionsTokens_eq_flatMap])

theorem refuse_predictive :
    Predictive (refuse : Parser Definition) fun d ts => d.tokens = modifiers.tokens ++ ts := by
  let d : Forward .kwInterface := ⟨modifiers, ⟨[], .start⟩, ⟨[], .start⟩, ⟨[], .start⟩⟩
  have htokens : (Definition.interfaceForward d).tokens =
      modifiers.tokens ++ (d.keyword.tokens ++ (d.name.tokens ++ d.semicolon.tokens)) := by
    simp [d, Definition.tokens, Forward.tokens]
  exact .refuse (List.cons_ne_nil _ _) htokens

theorem definition_predicts (n : Nat) : Predicts (definition n) Definition.tokens := by
  induction n with
  | zero => exact (refuse_predictive ⟨none, none⟩).mono fun _ _ h => h
  | succ n ih =>
    refine metadata_predicts.opt.bind fun m => Predictive.token.opt.bind fun isLocal =>
      Predictive.next fun next => ?_
    have hmodifiers : ∀ ts, optTokens Metadata.tokens m ++ (optTokens Tok.tokens isLocal ++ ts) =
        Modifiers.tokens ⟨m, isLocal⟩ ++ ts := by simp [Modifiers.tokens]
    simp only [hmodifiers]
    split
    · refine (module_predictive ih m).map fun d ts h => ?_
      simpa [Modifiers.tokens, Definition.tokens] using h
    · refine (const_predictive m).map fun d ts h => ?_
      simpa [Modifiers.tokens, Definition.tokens] using h
    · exact interface_predictive _
    · exact class'_predictive _
    · exact (exception_predictive _).map fun _ _ h => h
    · exact (struct_predictive _).map fun _ _ h => h
    · exact (enum_predictive _).map fun _ _ h => h
    · exact (sequence_predictive _).map fun _ _ h => h
    · exact (dictionary_predictive _).map fun _ _ h => h
    · exact refuse_predictive _

theorem module_agree {p q : Parser Definition} {n : Nat} (h : AgreeUpTo n p q)
    (hp : Predicts p Definition.tokens) (m : Option Metadata) :
    AgreeUpTo (n + 1) (module p m) (module q m) := by
  refine .bind_taking token_sound (fun _ => List.cons_ne_nil _ _) fun keyword =>
    (AgreeUpTo.refl _).bind scopedName_sound fun name =>
    (AgreeUpTo.refl _).bind token_sound fun left =>
    (h.repeatWhile hp.sound).bind hp.sound.repeatWhile fun definitions => .refl _

theorem definition_nil (n : Nat) : definition n [] = .error [] := by
  cases n <;> rfl

theorem definition_bound {l m n : Nat} (hm : l ≤ m) (hn : l ≤ n) :
    AgreeUpTo l (definition m) (definition n) := by
  -- There are no more modules inside each other than tokens.
  induction l generalizing m n with
  | zero =>
    intro ts hts
    obtain rfl : ts = [] := by simpa using hts
    rw [definition_nil, definition_nil]
  | succ l ih =>
    obtain ⟨m, rfl⟩ := Nat.exists_eq_succ_of_ne_zero (Nat.ne_of_gt (Nat.zero_lt_of_lt hm))
    obtain ⟨n, rfl⟩ := Nat.exists_eq_succ_of_ne_zero (Nat.ne_of_gt (Nat.zero_lt_of_lt hn))
    have hrec := ih (Nat.le_of_succ_le_succ hm) (Nat.le_of_succ_le_succ hn)
    refine (AgreeUpTo.refl _).bind metadata_sound.opt fun metadata =>
      (AgreeUpTo.refl _).bind token_sound.opt fun isLocal => .next fun next => ?_
    split
    · exact (module_agree hrec (definition_predicts m) metadata).map
    all_goals exact .refl _

theorem topModule_predictive (m : Option Metadata) :
    Predictive (topModule m) fun d ts => d.tokens = optTokens Metadata.tokens m ++ ts := by
  refine .of_bound (fun n => module_predictive (definition_predicts n) m) fun n ts hn => ?_
  have hagree := definition_bound (Nat.le_refl ts.length) hn
  exact module_agree hagree (definition_predicts _) m ts (Nat.le_succ _)

theorem topItem_predicts : Predicts topItem TopItem.tokens := by
  refine Predictive.next fun next => ?_
  split
  · exact Predictive.token.map fun _ => rfl
  · exact Predictive.token.map fun _ => rfl
  · refine Predictive.token.bind fun left => Predictive.next fun next => ?_
    split
    · exact metadata_predicts.bind fun inner => Predictive.token.bind fun right =>
        .pure (by simp [TopItem.tokens, FileMetadata.tokens])
    · refine (metadataAfter_predictive left).bind fun m ts hm => ?_
      refine (topModule_predictive (some m)).map fun d us hd => ?_
      rw [← List.append_assoc, ← hm]
      exact hd
  · exact (topModule_predictive none).map fun _ _ h => h

theorem file_predicts : Predicts file File.tokens :=
  topItem_predicts.repeatWhile fun i =>
    ne_nil_of_startsWith fun rest => (startsWith_topItem rest i).1

end SliceIdl.Grammar.Parser
