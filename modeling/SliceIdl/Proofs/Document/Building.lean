import SliceIdl.Proofs.Document.Flaws
import SliceIdl.Proofs.Document.Lawful

/-!
# Which trees are built

Whether a tree is built passes from its parts to the whole, as every part of it is built on its own:
its tokens must have values, and its tags, its parameters and the number of its members must be as
the rules ask. The order in which the parts are built decides which error is reported, but not
whether there is one.
-/

set_option autoImplicit false

namespace SliceIdl
open Text Lexeme Literal

namespace Grammar

def Operation.paramTrees (o : Operation) : List Param :=
  (o.params.map ParamList.toList).getD []

def Operation.tags (o : Operation) : List OptionalTag :=
  o.type.tag.toList ++ o.paramTrees.filterMap fun p => p.type.tag

namespace Definition

def members : Definition → List DataMember
  | .class d => d.body.items.filterMap ClassItem.member?
  | .exception d => d.body.items
  | .struct d => d.body.items
  | _ => []

def operations : Definition → List Operation
  | .interface d => d.body.items
  | .class d => d.body.items.filterMap ClassItem.operation?
  | _ => []

def tags (d : Definition) : List OptionalTag :=
  (d.members.filterMap fun m => m.type.tag) ++ d.operations.flatMap Operation.tags

def IsEmpty : Definition → Prop
  | .struct d => d.body.items = []
  | .enum d => d.enumerators = none
  | _ => False

end Definition

def Succeeds {α : Type} (x : Build α) : Prop :=
  ∃ a, x = .ok a

section
variable {α β : Type} {x : Build α} {k : α → Build β}

@[simp]
theorem succeeds_pure (a : α) : Succeeds (pure a : Build α) :=
  ⟨a, rfl⟩

@[simp]
theorem succeeds_map (g : α → β) : Succeeds (g <$> x) ↔ Succeeds x := by
  simp [Succeeds, build_map_eq_ok]

theorem succeeds_bind : Succeeds (x >>= k) ↔ ∃ a, x = .ok a ∧ Succeeds (k a) := by
  simp only [Succeeds, build_bind_eq_ok]
  constructor
  · rintro ⟨b, a, ha, hb⟩
    exact ⟨a, ha, b, hb⟩
  · rintro ⟨a, ha, b, hb⟩
    exact ⟨b, a, ha, hb⟩

theorem succeeds_seq {p : Prop} (h : ∀ a, x = .ok a → (Succeeds (k a) ↔ p)) :
    Succeeds (x >>= k) ↔ Succeeds x ∧ p := by
  rw [succeeds_bind]
  constructor
  · rintro ⟨a, ha, hk⟩
    exact ⟨⟨a, ha⟩, (h a ha).1 hk⟩
  · rintro ⟨⟨a, ha⟩, hp⟩
    exact ⟨a, ha, (h a ha).2 hp⟩

theorem succeeds_bind_pure (g : α → β) : Succeeds (x >>= fun a => pure (g a)) ↔ Succeeds x := by
  rw [bind_pure_comp, succeeds_map]

@[simp]
theorem not_succeeds_throw_bind (e : Rejection) : ¬ Succeeds ((throw e : Build α) >>= k) := by
  rintro ⟨_, ⟨⟩⟩

@[simp]
theorem succeeds_mapM {build : α → Build β} {xs : List α} :
    Succeeds (xs.mapM build) ↔ ∀ x ∈ xs, Succeeds (build x) := by
  induction xs with
  | nil => simp
  | cons x xs ih =>
    rw [List.mapM_cons, List.forall_mem_cons, ← ih]
    exact succeeds_seq fun b _ => succeeds_bind_pure _

@[simp]
theorem succeeds_optionMapM {build : α → Build β} {o : Option α} :
    Succeeds (o.mapM build) ↔ ∀ x ∈ o, Succeeds (build x) := by
  cases o with
  | none => simp [Succeeds, pure, Except.pure]
  | some x => simp

end

section
variable {α β γ : Type} {build : α → Build β} {xs : List α} {ys : List β}

theorem map_eq_of_mapM {f : α → γ} {g : β → γ} (hf : ∀ x y, build x = .ok y → g y = f x)
    (h : xs.mapM build = .ok ys) : ys.map g = xs.map f := by
  induction xs generalizing ys with
  | nil =>
    cases h
    rfl
  | cons x xs ih =>
    rw [List.mapM_cons] at h
    simp only [build_bind_eq_ok, build_pure_eq_ok] at h
    obtain ⟨y, hy, ys, hys, rfl⟩ := h
    rw [List.map_cons, List.map_cons, hf x y hy, ih hys]

theorem isEmpty_of_mapM (h : xs.mapM build = .ok ys) : ys.isEmpty = xs.isEmpty := by
  have hunits : ys.map (fun _ => ()) = xs.map fun _ => () :=
    map_eq_of_mapM (fun _ _ _ => rfl) h
  rw [← List.isEmpty_map, hunits, List.isEmpty_map]

end

def Meaningful (ts : List Token) : Prop :=
  ∀ t ∈ ts, t.HasValue

@[simp]
theorem meaningful_nil : Meaningful [] :=
  List.forall_mem_nil _

@[simp]
theorem meaningful_append {ts us : List Token} :
    Meaningful (ts ++ us) ↔ Meaningful ts ∧ Meaningful us :=
  List.forall_mem_append

section
variable {α : Type} {kind : TokenKind} {f : α → List Token}

abbrev mayLackValue : TokenKind → Bool
  | .string | .int | .includeFile => true
  | _ => false

@[simp]
theorem meaningful_tok (h : mayLackValue kind = false) (t : Tok kind) :
    Meaningful t.tokens := by
  intro u hu
  obtain rfl := List.mem_singleton.1 hu
  cases kind <;> trivial

theorem meaningful_string {t : Tok .string} : Meaningful t.tokens ↔ Succeeds (stringValue t) := by
  simp only [Succeeds, stringValue_eq_ok]
  simp [Meaningful, Tok.tokens, Tok.token, Token.HasValue, Option.isSome_iff_exists]

theorem meaningful_int {t : Tok .int} : Meaningful t.tokens ↔ Succeeds (intValue t) := by
  simp only [Succeeds, intValue_eq_ok]
  simp [Meaningful, Tok.tokens, Tok.token, Token.HasValue]

theorem meaningful_includeFile {t : Tok .includeFile} :
    Meaningful t.tokens ↔ Succeeds (includeName t) := by
  simp only [Succeeds, includeName_eq_ok]
  simp [Meaningful, Tok.tokens, Tok.token, Token.HasValue, Option.isSome_iff_exists]

@[simp]
theorem meaningful_opt {o : Option α} :
    Meaningful (optTokens f o) ↔ ∀ x ∈ o, Meaningful (f x) := by
  cases o with
  | none => simp [optTokens]
  | some x => simp [optTokens]

@[simp]
theorem meaningful_tail (h : mayLackValue kind = false)
    {rest : List (Tok kind × α)} :
    Meaningful (tailTokens f rest) ↔ ∀ x ∈ rest.map Prod.snd, Meaningful (f x) := by
  induction rest with
  | nil => simp [tailTokens]
  | cons part rest ih =>
    rw [List.map_cons, List.forall_mem_cons, ← ih]
    simp [tailTokens, meaningful_tok h]

@[simp]
theorem meaningful_flatMap {xs : List α} :
    Meaningful (xs.flatMap f) ↔ ∀ x ∈ xs, Meaningful (f x) := by
  induction xs with
  | nil => simp
  | cons x xs ih => simp [ih]

@[simp]
theorem meaningful_body {b : Body α} :
    Meaningful (b.tokens f) ↔ ∀ x ∈ b.items, Meaningful (f x) := by
  simp [Body.tokens]

end

@[simp]
theorem meaningful_scopedName (n : ScopedName) : Meaningful n.tokens := by
  simp [ScopedName.tokens]

@[simp]
theorem meaningful_nameList {keyword : TokenKind} (h : mayLackValue keyword = false)
    (n : NameList keyword) : Meaningful n.tokens := by
  simp [NameList.tokens, h]

@[simp]
theorem meaningful_base (b : Base) : Meaningful b.tokens := by
  simp [Base.tokens]

@[simp]
theorem meaningful_typeName (t : TypeName) : Meaningful t.tokens := by
  simp [TypeName.tokens]

@[simp]
theorem meaningful_metadata {m : Metadata} : Meaningful m.tokens ↔ Succeeds m.build := by
  rw [Metadata.build, succeeds_mapM, StringList.toList]
  simp [Metadata.tokens, StringList.tokens, meaningful_string]

@[simp]
theorem succeeds_buildMetadata {o : Option Metadata} :
    Succeeds (buildMetadata o) ↔ ∀ m ∈ o, Succeeds m.build := by
  cases o with
  | none => simp [buildMetadata]
  | some m => simp [buildMetadata]

@[simp]
theorem meaningful_annotatedType {t : AnnotatedType} :
    Meaningful t.tokens ↔ Succeeds (buildMetadata t.metadata) := by
  simp [AnnotatedType.tokens]

@[simp]
theorem meaningful_parenInt {p : ParenInt} :
    Meaningful p.tokens ↔ Succeeds (intValue p.value) := by
  simp [ParenInt.tokens, meaningful_int]

@[simp]
theorem meaningful_modifiers {m : Modifiers} :
    Meaningful m.tokens ↔ Succeeds (buildMetadata m.metadata) := by
  simp [Modifiers.tokens]

def OptionalTag.IsNatural (t : OptionalTag) : Prop :=
  ∀ n, Literal.int t.number.value.text = .ok n → 0 ≤ n

theorem succeeds_tag (t : OptionalTag) :
    Succeeds t.build ↔ Meaningful t.tokens ∧ t.IsNatural := by
  have htokens : Meaningful t.tokens ↔ ∃ n, Literal.int t.number.value.text = .ok n := by
    simp [OptionalTag.tokens, Succeeds, intValue_eq_ok]
  simp only [Succeeds, OptionalTag.build_eq_ok, htokens, OptionalTag.IsNatural]
  constructor
  · rintro ⟨k, hk⟩
    refine ⟨⟨k, hk⟩, fun n hn => ?_⟩
    obtain rfl : (k : Int) = n := Except.ok.inj (hk.symm.trans hn)
    exact Int.natCast_nonneg k
  · rintro ⟨⟨n, hn⟩, hnatural⟩
    exact ⟨n.toNat, by rw [hn, Int.toNat_of_nonneg (hnatural n hn)]⟩

theorem succeeds_tagNumber (t : MemberType) :
    Succeeds t.tagNumber ↔ Meaningful t.tokens ∧ ∀ tag ∈ t.tag, tag.IsNatural := by
  simp [MemberType.tagNumber, MemberType.tokens, succeeds_tag, forall_and]

theorem succeeds_constValue (v : ConstValue) : Succeeds v.build ↔ Meaningful v.tokens := by
  cases v <;>
  simp [ConstValue.build, ConstValue.tokens, meaningful_int, meaningful_string]

theorem succeeds_initial (o : Option Initial) :
    Succeeds (o.mapM fun i => i.value.build) ↔ Meaningful (optTokens Initial.tokens o) := by
  simp [Initial.tokens, succeeds_constValue]

theorem succeeds_member (m : DataMember) :
    Succeeds m.build ↔ Meaningful m.tokens ∧ ∀ tag ∈ m.type.tag, tag.IsNatural := by
  have hbuild : Succeeds m.build ↔ Succeeds m.type.tagNumber ∧
      Succeeds (m.initial.mapM fun i => i.value.build) ∧ Succeeds (buildMetadata m.metadata) :=
    succeeds_seq fun _ _ => succeeds_seq fun _ _ => succeeds_bind_pure _
  have htokens : Meaningful m.tokens ↔ (Succeeds (buildMetadata m.metadata) ∧
      Meaningful m.type.tokens) ∧ Meaningful (optTokens Initial.tokens m.initial) := by
    simp [DataMember.tokens, and_assoc]
  rw [hbuild, htokens, succeeds_tagNumber, succeeds_initial]
  tauto

theorem succeeds_param (p : Param) :
    Succeeds p.build ↔ Meaningful p.tokens ∧ ∀ tag ∈ p.type.tag, tag.IsNatural := by
  have hbuild : Succeeds p.build ↔ Succeeds p.type.tagNumber ∧
      Succeeds (buildMetadata p.metadata) :=
    succeeds_seq fun _ _ => succeeds_bind_pure _
  have htokens : Meaningful p.tokens ↔ Succeeds (buildMetadata p.metadata) ∧
      Meaningful p.type.tokens := by
    simp [Param.tokens]
  rw [hbuild, htokens, succeeds_tagNumber]
  tauto

theorem param_names {gs : List Param} {ps : List SliceIdl.Param}
    (h : gs.mapM Param.build = .ok ps) :
    ps.map SliceIdl.Param.name = gs.map fun p => p.name.text := by
  refine map_eq_of_mapM (fun g p hp => ?_) h
  simp only [Param.build, build_bind_eq_ok, build_pure_eq_ok] at hp
  obtain ⟨tag, -, metadata, -, rfl⟩ := hp
  rfl

theorem meaningful_params (o : Operation) : Meaningful (optTokens ParamList.tokens o.params) ↔
    ∀ p ∈ o.paramTrees, Meaningful p.tokens := by
  rw [Operation.paramTrees]
  cases o.params with
  | none => simp
  | some ps => simp [ParamList.tokens, ParamList.toList]

theorem succeeds_operation (o : Operation) : Succeeds o.build ↔ Meaningful o.tokens ∧
    (∀ tag ∈ o.tags, tag.IsNatural) ∧ (o.paramTrees.map fun p => p.name.text).Nodup := by
  have hbuild : Succeeds o.build ↔ Succeeds (o.paramTrees.mapM Param.build) ∧
      (o.paramTrees.map fun p => p.name.text).Nodup ∧ Succeeds o.type.tagNumber ∧
        Succeeds (buildMetadata o.metadata) := by
    refine succeeds_seq fun ps hps => ?_
    have hnames : ps.map SliceIdl.Param.name = o.paramTrees.map fun p => p.name.text :=
      param_names hps
    have hrepeat : firstRepeat? [] ps = none ↔ (ps.map SliceIdl.Param.name).Nodup := by
      simp [firstRepeat?_eq_none]
    rw [← hnames, ← hrepeat]
    cases firstRepeat? [] ps with
    | none =>
      rw [eq_self, true_and]
      exact succeeds_seq fun _ _ => succeeds_bind_pure _
    | some p => simp
  have htokens : Meaningful o.tokens ↔ Succeeds (buildMetadata o.metadata) ∧
      Meaningful o.type.tokens ∧ ∀ p ∈ o.paramTrees, Meaningful p.tokens := by
    rw [← meaningful_params]
    simp [Operation.tokens]
  have hparams : Succeeds (o.paramTrees.mapM Param.build) ↔
      (∀ p ∈ o.paramTrees, Meaningful p.tokens) ∧
        ∀ p ∈ o.paramTrees, ∀ tag ∈ p.type.tag, tag.IsNatural := by
    simp only [succeeds_mapM, succeeds_param, forall_and]
  have htags : (∀ tag ∈ o.tags, tag.IsNatural) ↔ (∀ tag ∈ o.type.tag, tag.IsNatural) ∧
      ∀ p ∈ o.paramTrees, ∀ tag ∈ p.type.tag, tag.IsNatural := by
    rw [Operation.tags, List.forall_mem_append, List.forall_mem_filterMap]
    simp
  rw [hbuild, htokens, hparams, htags, succeeds_tagNumber]
  tauto

theorem succeeds_members (ms : List DataMember) : Succeeds (ms.mapM DataMember.build) ↔
    (∀ m ∈ ms, Meaningful m.tokens) ∧
      ∀ tag ∈ ms.filterMap fun m => m.type.tag, tag.IsNatural := by
  simp only [succeeds_mapM, succeeds_member, forall_and, List.forall_mem_filterMap, Option.mem_def]

theorem succeeds_operations (os : List Operation) : Succeeds (os.mapM Operation.build) ↔
    (∀ o ∈ os, Meaningful o.tokens) ∧ (∀ tag ∈ os.flatMap Operation.tags, tag.IsNatural) ∧
      ∀ o ∈ os, (o.paramTrees.map fun p => p.name.text).Nodup := by
  simp only [succeeds_mapM, succeeds_operation, forall_and, List.forall_mem_flatMap]

/-- Apart from its tokens, nothing is wrong with the definition itself. -/
def Definition.Sane (d : Definition) : Prop :=
  (∀ tag ∈ d.tags, tag.IsNatural) ∧
    (∀ o ∈ d.operations, (o.paramTrees.map fun p => p.name.text).Nodup) ∧ ¬ d.IsEmpty

theorem succeeds_interface (d : Interface) :
    Succeeds d.build ↔ Meaningful d.tokens ∧ (Definition.interface d).Sane := by
  have hbuild : Succeeds d.build ↔ Succeeds (d.body.items.mapM Operation.build) ∧
      Succeeds (buildMetadata d.modifiers.metadata) :=
    succeeds_seq fun _ _ => succeeds_bind_pure _
  have htokens : Meaningful d.tokens ↔ Succeeds (buildMetadata d.modifiers.metadata) ∧
      ∀ o ∈ d.body.items, Meaningful o.tokens := by
    simp [Interface.tokens]
  have hsane : (Definition.interface d).Sane ↔
      (∀ tag ∈ d.body.items.flatMap Operation.tags, tag.IsNatural) ∧
        ∀ o ∈ d.body.items, (o.paramTrees.map fun p => p.name.text).Nodup := by
    simp [Definition.Sane, Definition.tags, Definition.members, Definition.operations,
      Definition.IsEmpty]
  rw [hbuild, succeeds_operations, htokens, hsane]
  tauto

theorem succeeds_forward {keyword : TokenKind} (h : mayLackValue keyword = false)
    (kind : ForwardKind) (d : Forward keyword) :
    Succeeds (d.build kind) ↔ Meaningful d.tokens := by
  have hbuild : Succeeds (d.build kind) ↔ Succeeds (buildMetadata d.modifiers.metadata) :=
    succeeds_bind_pure _
  rw [hbuild]
  simp [Forward.tokens, h]

theorem meaningful_classItem (item : ClassItem) : Meaningful item.tokens ↔
    (∀ m, item.member? = some m → Meaningful m.tokens) ∧
      ∀ o, item.operation? = some o → Meaningful o.tokens := by
  cases item with
  | member m => simp [ClassItem.tokens, ClassItem.member?, ClassItem.operation?]
  | operation o => simp [ClassItem.tokens, ClassItem.member?, ClassItem.operation?]

theorem meaningful_classItems (items : List ClassItem) :
    (∀ item ∈ items, Meaningful item.tokens) ↔
      (∀ m ∈ items.filterMap ClassItem.member?, Meaningful m.tokens) ∧
        ∀ o ∈ items.filterMap ClassItem.operation?, Meaningful o.tokens := by
  simp only [meaningful_classItem, forall_and, List.forall_mem_filterMap]

theorem succeeds_class (d : Class) :
    Succeeds d.build ↔ Meaningful d.tokens ∧ (Definition.class d).Sane := by
  have hbuild : Succeeds d.build ↔ Succeeds (d.compactId.mapM fun p => intValue p.value) ∧
      Succeeds ((Definition.class d).members.mapM DataMember.build) ∧
        Succeeds ((Definition.class d).operations.mapM Operation.build) ∧
          Succeeds (buildMetadata d.modifiers.metadata) :=
    succeeds_seq fun _ _ => succeeds_seq fun _ _ => succeeds_seq fun _ _ => succeeds_bind_pure _
  have htokens : Meaningful d.tokens ↔ Succeeds (buildMetadata d.modifiers.metadata) ∧
      Succeeds (d.compactId.mapM fun p => intValue p.value) ∧
        (∀ m ∈ (Definition.class d).members, Meaningful m.tokens) ∧
          ∀ o ∈ (Definition.class d).operations, Meaningful o.tokens := by
    rw [Definition.members, Definition.operations, ← meaningful_classItems]
    simp [Class.tokens]
  rw [hbuild, succeeds_operations, succeeds_members, htokens, Definition.Sane, Definition.tags,
    List.forall_mem_append]
  simp only [Definition.IsEmpty, not_false_eq_true, and_true]
  tauto

theorem succeeds_exception (d : Exception) :
    Succeeds d.build ↔ Meaningful d.tokens ∧ (Definition.exception d).Sane := by
  have hbuild : Succeeds d.build ↔ Succeeds (d.body.items.mapM DataMember.build) ∧
      Succeeds (buildMetadata d.modifiers.metadata) :=
    succeeds_seq fun _ _ => succeeds_bind_pure _
  have htokens : Meaningful d.tokens ↔ Succeeds (buildMetadata d.modifiers.metadata) ∧
      ∀ m ∈ d.body.items, Meaningful m.tokens := by
    simp [Exception.tokens]
  have hsane : (Definition.exception d).Sane ↔
      ∀ tag ∈ d.body.items.filterMap fun m => m.type.tag, tag.IsNatural := by
    simp [Definition.Sane, Definition.tags, Definition.members, Definition.operations,
      Definition.IsEmpty]
  rw [hbuild, succeeds_members, htokens, hsane]
  tauto

theorem succeeds_struct (d : Struct) :
    Succeeds d.build ↔ Meaningful d.tokens ∧ (Definition.struct d).Sane := by
  have hbuild : Succeeds d.build ↔ Succeeds (d.body.items.mapM DataMember.build) ∧
      d.body.items ≠ [] ∧ Succeeds (buildMetadata d.modifiers.metadata) := by
    refine succeeds_seq fun ms hms => ?_
    rw [isEmpty_of_mapM hms]
    by_cases hitems : d.body.items = []
    · simp [hitems]
    · simp [hitems]
  have htokens : Meaningful d.tokens ↔ Succeeds (buildMetadata d.modifiers.metadata) ∧
      ∀ m ∈ d.body.items, Meaningful m.tokens := by
    simp [Struct.tokens]
  have hsane : (Definition.struct d).Sane ↔
      (∀ tag ∈ d.body.items.filterMap fun m => m.type.tag, tag.IsNatural) ∧
        d.body.items ≠ [] := by
    simp [Definition.Sane, Definition.tags, Definition.members, Definition.operations,
      Definition.IsEmpty]
  rw [hbuild, succeeds_members, htokens, hsane]
  tauto

theorem succeeds_enumerator (e : Enumerator) : Succeeds e.build ↔ Meaningful e.tokens := by
  have hbuild : Succeeds e.build ↔ Succeeds (e.value.mapM fun v => intValue v.value) :=
    succeeds_bind_pure _
  rw [hbuild]
  simp [Enumerator.tokens, EnumValue.tokens, meaningful_int]

theorem succeeds_enum (d : Enum) :
    Succeeds d.build ↔ Meaningful d.tokens ∧ (Definition.enum d).Sane := by
  have hbuild : Succeeds d.build ↔
      Succeeds (((d.enumerators.map EnumeratorList.toList).getD []).mapM Enumerator.build) ∧
        d.enumerators ≠ none ∧ Succeeds (buildMetadata d.modifiers.metadata) := by
    refine succeeds_seq fun es hes => ?_
    rw [isEmpty_of_mapM hes]
    cases d.enumerators with
    | none => simp
    | some es => simp [EnumeratorList.toList]
  have htokens : Meaningful d.tokens ↔ Succeeds (buildMetadata d.modifiers.metadata) ∧
      Succeeds (((d.enumerators.map EnumeratorList.toList).getD []).mapM Enumerator.build) := by
    rw [succeeds_mapM]
    cases henumerators : d.enumerators with
    | none => simp [Enum.tokens, henumerators]
    | some es =>
      simp [Enum.tokens, henumerators, EnumeratorList.tokens, EnumeratorList.toList,
        succeeds_enumerator]
  have hsane : (Definition.enum d).Sane ↔ d.enumerators ≠ none := by
    simp [Definition.Sane, Definition.tags, Definition.members, Definition.operations,
      Definition.IsEmpty]
  rw [hbuild, htokens, hsane]
  tauto

theorem succeeds_sequence (d : Sequence) : Succeeds d.build ↔ Meaningful d.tokens := by
  have hbuild : Succeeds d.build ↔ Succeeds (buildMetadata d.element.metadata) ∧
      Succeeds (buildMetadata d.modifiers.metadata) :=
    succeeds_seq fun _ _ => succeeds_bind_pure _
  rw [hbuild, and_comm]
  simp [Sequence.tokens]

theorem succeeds_dictionary (d : Dictionary) : Succeeds d.build ↔ Meaningful d.tokens := by
  have hbuild : Succeeds d.build ↔ Succeeds (buildMetadata d.key.metadata) ∧
      Succeeds (buildMetadata d.value.metadata) ∧
        Succeeds (buildMetadata d.modifiers.metadata) :=
    succeeds_seq fun _ _ => succeeds_seq fun _ _ => succeeds_bind_pure _
  have htokens : Meaningful d.tokens ↔ Succeeds (buildMetadata d.modifiers.metadata) ∧
      Succeeds (buildMetadata d.key.metadata) ∧ Succeeds (buildMetadata d.value.metadata) := by
    simp [Dictionary.tokens]
  rw [hbuild, htokens]
  tauto

theorem succeeds_const (d : Const) : Succeeds d.build ↔ Meaningful d.tokens := by
  have hbuild : Succeeds d.build ↔ Succeeds d.initial.value.build ∧
      Succeeds (buildMetadata d.type.metadata) ∧ Succeeds (buildMetadata d.metadata) :=
    succeeds_seq fun _ _ => succeeds_seq fun _ _ => succeeds_bind_pure _
  have htokens : Meaningful d.tokens ↔ Succeeds (buildMetadata d.metadata) ∧
      Succeeds (buildMetadata d.type.metadata) ∧ Meaningful d.initial.value.tokens := by
    simp [Const.tokens, Initial.tokens]
  rw [hbuild, htokens, succeeds_constValue]
  tauto

theorem succeeds_leaf {d : Definition} (h : ∀ m, d ≠ .module m) :
    Succeeds d.build ↔ Meaningful d.tokens ∧ d.Sane := by
  -- Definitions without members and operations are sane.
  have hsane (hmembers : d.members = []) (hoperations : d.operations = []) (hd : ¬ d.IsEmpty) :
      Meaningful d.tokens ↔ Meaningful d.tokens ∧ d.Sane := by
    simp [Definition.Sane, Definition.tags, hmembers, hoperations, hd]
  cases d with
  | module m => exact absurd rfl (h m)
  | interface d => rw [Definition.build, succeeds_map, succeeds_interface, Definition.tokens]
  | «class» d => rw [Definition.build, succeeds_map, succeeds_class, Definition.tokens]
  | exception d => rw [Definition.build, succeeds_map, succeeds_exception, Definition.tokens]
  | struct d => rw [Definition.build, succeeds_map, succeeds_struct, Definition.tokens]
  | enum d => rw [Definition.build, succeeds_map, succeeds_enum, Definition.tokens]
  | interfaceForward d =>
    rw [← hsane rfl rfl nofun, Definition.build, succeeds_map, succeeds_forward rfl,
      Definition.tokens]
  | classForward d =>
    rw [← hsane rfl rfl nofun, Definition.build, succeeds_map, succeeds_forward rfl,
      Definition.tokens]
  | sequence d =>
    rw [← hsane rfl rfl nofun, Definition.build, succeeds_map, succeeds_sequence,
      Definition.tokens]
  | dictionary d =>
    rw [← hsane rfl rfl nofun, Definition.build, succeeds_map, succeeds_dictionary,
      Definition.tokens]
  | const d =>
    rw [← hsane rfl rfl nofun, Definition.build, succeeds_map, succeeds_const, Definition.tokens]

end Grammar

end SliceIdl
