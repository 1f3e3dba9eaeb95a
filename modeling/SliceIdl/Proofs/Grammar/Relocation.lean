import SliceIdl.Proofs.Grammar.Combinators

/-!
# Trees at other positions

A change of positions is carried through tokens and through trees. The tokens of the changed tree
are the changed tokens of the tree.
-/

set_option autoImplicit false

namespace SliceIdl

def Token.relocate (φ : Position → Position) (t : Token) : Token :=
  { t with pos := φ t.pos }

namespace Grammar

variable {kind keyword : TokenKind} {α β : Type} (φ : Position → Position)

def Tok.relocate (t : Tok kind) : Tok kind :=
  { t with pos := φ t.pos }

def relocateTail (f : α → α) (xs : List (Tok kind × α)) : List (Tok kind × α) :=
  xs.map fun x => (x.1.relocate φ, f x.2)

@[simp]
theorem Tok.tokens_relocate (t : Tok kind) :
    (t.relocate φ).tokens = t.tokens.map (Token.relocate φ) := rfl

@[simp]
theorem optTokens_map (f : β → List Token) (g : α → β) (o : Option α) :
    optTokens f (o.map g) = optTokens (fun a => f (g a)) o := by
  cases o <;> rfl

@[simp]
theorem map_optTokens (f : α → List Token) (g : Token → Token) (o : Option α) :
    (optTokens f o).map g = optTokens (fun a => (f a).map g) o := by
  cases o <;> rfl

@[simp]
theorem tailTokens_relocate {f : α → List Token} {g : α → α}
    (h : ∀ a, f (g a) = (f a).map (Token.relocate φ)) (xs : List (Tok kind × α)) :
    tailTokens f (relocateTail φ g xs) = (tailTokens f xs).map (Token.relocate φ) := by
  induction xs with
  | nil => rfl
  | cons x xs ih =>
    rw [relocateTail, List.map_cons, tailTokens, ← relocateTail, ih]
    simp [tailTokens, h]

@[simp]
theorem tailTokens_relocate_tok {kind' : TokenKind} (xs : List (Tok kind × Tok kind')) :
    tailTokens Tok.tokens (relocateTail φ (Tok.relocate φ) xs) =
      (tailTokens Tok.tokens xs).map (Token.relocate φ) :=
  tailTokens_relocate φ (Tok.tokens_relocate φ) xs

def StringList.relocate (x : StringList) : StringList where
  first := x.first.relocate φ
  more := relocateTail φ (Tok.relocate φ) x.more

@[simp]
theorem StringList.tokens_relocate (x : StringList) :
    (x.relocate φ).tokens = x.tokens.map (Token.relocate φ) := by
  simp [relocate, tokens]

def Metadata.relocate (x : Metadata) : Metadata where
  left := x.left.relocate φ
  strings := x.strings.relocate φ
  right := x.right.relocate φ

@[simp]
theorem Metadata.tokens_relocate (x : Metadata) :
    (x.relocate φ).tokens = x.tokens.map (Token.relocate φ) := by
  simp [relocate, tokens]

def FileMetadata.relocate (x : FileMetadata) : FileMetadata where
  left := x.left.relocate φ
  inner := x.inner.relocate φ
  right := x.right.relocate φ

@[simp]
theorem FileMetadata.tokens_relocate (x : FileMetadata) :
    (x.relocate φ).tokens = x.tokens.map (Token.relocate φ) := by
  simp [relocate, tokens]

def ScopedName.relocate (x : ScopedName) : ScopedName where
  lead := x.lead.map (Tok.relocate φ)
  first := x.first.relocate φ
  more := relocateTail φ (Tok.relocate φ) x.more

@[simp]
theorem ScopedName.tokens_relocate (x : ScopedName) :
    (x.relocate φ).tokens = x.tokens.map (Token.relocate φ) := by
  simp [relocate, tokens]

def NameList.relocate (x : NameList keyword) : NameList keyword where
  keyword := x.keyword.relocate φ
  first := x.first.relocate φ
  more := relocateTail φ (ScopedName.relocate φ) x.more

@[simp]
theorem NameList.tokens_relocate (x : NameList keyword) :
    (x.relocate φ).tokens = x.tokens.map (Token.relocate φ) := by
  simp [relocate, tokens]

def Base.relocate (x : Base) : Base where
  keyword := x.keyword.relocate φ
  name := x.name.relocate φ

@[simp]
theorem Base.tokens_relocate (x : Base) :
    (x.relocate φ).tokens = x.tokens.map (Token.relocate φ) := by
  simp [relocate, tokens]

def TypeName.relocate (x : TypeName) : TypeName where
  name := x.name.relocate φ
  question := x.question.map (Tok.relocate φ)
  star := x.star.map (Tok.relocate φ)

@[simp]
theorem TypeName.tokens_relocate (x : TypeName) :
    (x.relocate φ).tokens = x.tokens.map (Token.relocate φ) := by
  simp [relocate, tokens]

def AnnotatedType.relocate (x : AnnotatedType) : AnnotatedType where
  metadata := x.metadata.map (Metadata.relocate φ)
  type := x.type.relocate φ

@[simp]
theorem AnnotatedType.tokens_relocate (x : AnnotatedType) :
    (x.relocate φ).tokens = x.tokens.map (Token.relocate φ) := by
  simp [relocate, tokens]

def ParenInt.relocate (x : ParenInt) : ParenInt where
  left := x.left.relocate φ
  value := x.value.relocate φ
  right := x.right.relocate φ

@[simp]
theorem ParenInt.tokens_relocate (x : ParenInt) :
    (x.relocate φ).tokens = x.tokens.map (Token.relocate φ) := by
  simp [relocate, tokens]

def OptionalTag.relocate (x : OptionalTag) : OptionalTag where
  keyword := x.keyword.relocate φ
  number := x.number.relocate φ

@[simp]
theorem OptionalTag.tokens_relocate (x : OptionalTag) :
    (x.relocate φ).tokens = x.tokens.map (Token.relocate φ) := by
  simp [relocate, tokens]

def MemberType.relocate (x : MemberType) : MemberType where
  tag := x.tag.map (OptionalTag.relocate φ)
  type := x.type.relocate φ

@[simp]
theorem MemberType.tokens_relocate (x : MemberType) :
    (x.relocate φ).tokens = x.tokens.map (Token.relocate φ) := by
  simp [relocate, tokens]

def ConstValue.relocate : ConstValue → ConstValue
  | int t => int (t.relocate φ)
  | float t => float (t.relocate φ)
  | string t => string (t.relocate φ)
  | true t => true (t.relocate φ)
  | false t => false (t.relocate φ)
  | name n => name (n.relocate φ)

@[simp]
theorem ConstValue.tokens_relocate (v : ConstValue) :
    (v.relocate φ).tokens = v.tokens.map (Token.relocate φ) := by
  cases v <;> simp [relocate, tokens]

def Initial.relocate (x : Initial) : Initial where
  equal := x.equal.relocate φ
  value := x.value.relocate φ

@[simp]
theorem Initial.tokens_relocate (x : Initial) :
    (x.relocate φ).tokens = x.tokens.map (Token.relocate φ) := by
  simp [relocate, tokens]

def DataMember.relocate (x : DataMember) : DataMember where
  metadata := x.metadata.map (Metadata.relocate φ)
  type := x.type.relocate φ
  name := x.name.relocate φ
  initial := x.initial.map (Initial.relocate φ)
  semicolon := x.semicolon.relocate φ

@[simp]
theorem DataMember.tokens_relocate (x : DataMember) :
    (x.relocate φ).tokens = x.tokens.map (Token.relocate φ) := by
  simp [relocate, tokens]

def Param.relocate (x : Param) : Param where
  metadata := x.metadata.map (Metadata.relocate φ)
  out := x.out.map (Tok.relocate φ)
  type := x.type.relocate φ
  name := x.name.relocate φ

@[simp]
theorem Param.tokens_relocate (x : Param) :
    (x.relocate φ).tokens = x.tokens.map (Token.relocate φ) := by
  simp [relocate, tokens]

def ParamList.relocate (x : ParamList) : ParamList where
  first := x.first.relocate φ
  more := relocateTail φ (Param.relocate φ) x.more

@[simp]
theorem ParamList.tokens_relocate (x : ParamList) :
    (x.relocate φ).tokens = x.tokens.map (Token.relocate φ) := by
  simp [relocate, tokens]

def Operation.relocate (x : Operation) : Operation where
  metadata := x.metadata.map (Metadata.relocate φ)
  idempotent := x.idempotent.map (Tok.relocate φ)
  type := x.type.relocate φ
  name := x.name.relocate φ
  left := x.left.relocate φ
  params := x.params.map (ParamList.relocate φ)
  right := x.right.relocate φ
  throws := x.throws.map (NameList.relocate φ)
  semicolon := x.semicolon.relocate φ

@[simp]
theorem Operation.tokens_relocate (x : Operation) :
    (x.relocate φ).tokens = x.tokens.map (Token.relocate φ) := by
  simp [relocate, tokens]

def ClassItem.relocate : ClassItem → ClassItem
  | member m => member (m.relocate φ)
  | operation o => operation (o.relocate φ)

@[simp]
theorem ClassItem.tokens_relocate (i : ClassItem) :
    (i.relocate φ).tokens = i.tokens.map (Token.relocate φ) := by
  cases i <;> simp [relocate, tokens]

def Body.relocate (f : α → α) (b : Body α) : Body α where
  left := b.left.relocate φ
  items := b.items.map f
  right := b.right.relocate φ
  semicolon := b.semicolon.map (Tok.relocate φ)

@[simp]
theorem Body.tokens_relocate {f : α → List Token} {g : α → α}
    (h : ∀ a, f (g a) = (f a).map (Token.relocate φ)) (b : Body α) :
    (b.relocate φ g).tokens f = (b.tokens f).map (Token.relocate φ) := by
  simp [relocate, tokens, List.flatMap_map, List.map_flatMap, h]

def Modifiers.relocate (x : Modifiers) : Modifiers where
  metadata := x.metadata.map (Metadata.relocate φ)
  isLocal := x.isLocal.map (Tok.relocate φ)

@[simp]
theorem Modifiers.tokens_relocate (x : Modifiers) :
    (x.relocate φ).tokens = x.tokens.map (Token.relocate φ) := by
  simp [relocate, tokens]

def Interface.relocate (x : Interface) : Interface where
  modifiers := x.modifiers.relocate φ
  keyword := x.keyword.relocate φ
  name := x.name.relocate φ
  bases := x.bases.map (NameList.relocate φ)
  body := x.body.relocate φ (Operation.relocate φ)

@[simp]
theorem Interface.tokens_relocate (x : Interface) :
    (x.relocate φ).tokens = x.tokens.map (Token.relocate φ) := by
  simp [relocate, tokens]

def Forward.relocate (x : Forward keyword) : Forward keyword where
  modifiers := x.modifiers.relocate φ
  keyword := x.keyword.relocate φ
  name := x.name.relocate φ
  semicolon := x.semicolon.relocate φ

@[simp]
theorem Forward.tokens_relocate (x : Forward keyword) :
    (x.relocate φ).tokens = x.tokens.map (Token.relocate φ) := by
  simp [relocate, tokens]

def Class.relocate (x : Class) : Class where
  modifiers := x.modifiers.relocate φ
  keyword := x.keyword.relocate φ
  name := x.name.relocate φ
  compactId := x.compactId.map (ParenInt.relocate φ)
  base := x.base.map (Base.relocate φ)
  implements := x.implements.map (NameList.relocate φ)
  body := x.body.relocate φ (ClassItem.relocate φ)

@[simp]
theorem Class.tokens_relocate (x : Class) :
    (x.relocate φ).tokens = x.tokens.map (Token.relocate φ) := by
  simp [relocate, tokens]

def Exception.relocate (x : Exception) : Exception where
  modifiers := x.modifiers.relocate φ
  keyword := x.keyword.relocate φ
  name := x.name.relocate φ
  base := x.base.map (Base.relocate φ)
  body := x.body.relocate φ (DataMember.relocate φ)

@[simp]
theorem Exception.tokens_relocate (x : Exception) :
    (x.relocate φ).tokens = x.tokens.map (Token.relocate φ) := by
  simp [relocate, tokens]

def Struct.relocate (x : Struct) : Struct where
  modifiers := x.modifiers.relocate φ
  keyword := x.keyword.relocate φ
  name := x.name.relocate φ
  body := x.body.relocate φ (DataMember.relocate φ)

@[simp]
theorem Struct.tokens_relocate (x : Struct) :
    (x.relocate φ).tokens = x.tokens.map (Token.relocate φ) := by
  simp [relocate, tokens]

def EnumValue.relocate (x : EnumValue) : EnumValue where
  equal := x.equal.relocate φ
  value := x.value.relocate φ

@[simp]
theorem EnumValue.tokens_relocate (x : EnumValue) :
    (x.relocate φ).tokens = x.tokens.map (Token.relocate φ) := by
  simp [relocate, tokens]

def Enumerator.relocate (x : Enumerator) : Enumerator where
  name := x.name.relocate φ
  value := x.value.map (EnumValue.relocate φ)

@[simp]
theorem Enumerator.tokens_relocate (x : Enumerator) :
    (x.relocate φ).tokens = x.tokens.map (Token.relocate φ) := by
  simp [relocate, tokens]

def EnumeratorList.relocate (x : EnumeratorList) : EnumeratorList where
  first := x.first.relocate φ
  more := relocateTail φ (Enumerator.relocate φ) x.more
  trailing := x.trailing.map (Tok.relocate φ)

@[simp]
theorem EnumeratorList.tokens_relocate (x : EnumeratorList) :
    (x.relocate φ).tokens = x.tokens.map (Token.relocate φ) := by
  simp [relocate, tokens]

def Enum.relocate (x : Enum) : Enum where
  modifiers := x.modifiers.relocate φ
  keyword := x.keyword.relocate φ
  name := x.name.relocate φ
  left := x.left.relocate φ
  enumerators := x.enumerators.map (EnumeratorList.relocate φ)
  right := x.right.relocate φ
  semicolon := x.semicolon.map (Tok.relocate φ)

@[simp]
theorem Enum.tokens_relocate (x : Enum) :
    (x.relocate φ).tokens = x.tokens.map (Token.relocate φ) := by
  simp [relocate, tokens]

def Sequence.relocate (x : Sequence) : Sequence where
  modifiers := x.modifiers.relocate φ
  keyword := x.keyword.relocate φ
  left := x.left.relocate φ
  element := x.element.relocate φ
  right := x.right.relocate φ
  name := x.name.relocate φ
  semicolon := x.semicolon.relocate φ

@[simp]
theorem Sequence.tokens_relocate (x : Sequence) :
    (x.relocate φ).tokens = x.tokens.map (Token.relocate φ) := by
  simp [relocate, tokens]

def Dictionary.relocate (x : Dictionary) : Dictionary where
  modifiers := x.modifiers.relocate φ
  keyword := x.keyword.relocate φ
  left := x.left.relocate φ
  key := x.key.relocate φ
  comma := x.comma.relocate φ
  value := x.value.relocate φ
  right := x.right.relocate φ
  name := x.name.relocate φ
  semicolon := x.semicolon.relocate φ

@[simp]
theorem Dictionary.tokens_relocate (x : Dictionary) :
    (x.relocate φ).tokens = x.tokens.map (Token.relocate φ) := by
  simp [relocate, tokens]

def Const.relocate (x : Const) : Const where
  metadata := x.metadata.map (Metadata.relocate φ)
  keyword := x.keyword.relocate φ
  type := x.type.relocate φ
  name := x.name.relocate φ
  initial := x.initial.relocate φ
  semicolon := x.semicolon.relocate φ

@[simp]
theorem Const.tokens_relocate (x : Const) :
    (x.relocate φ).tokens = x.tokens.map (Token.relocate φ) := by
  simp [relocate, tokens]

mutual

def Module.relocate : Module → Module
  | .mk metadata keyword name left definitions right semicolon =>
    .mk (metadata.map (Metadata.relocate φ)) (keyword.relocate φ) (name.relocate φ)
      (left.relocate φ) (relocateDefinitions definitions) (right.relocate φ)
      (semicolon.map (Tok.relocate φ))

def Definition.relocate : Definition → Definition
  | .module d => .module d.relocate
  | .interface d => .interface (d.relocate φ)
  | .interfaceForward d => .interfaceForward (d.relocate φ)
  | .class d => .class (d.relocate φ)
  | .classForward d => .classForward (d.relocate φ)
  | .exception d => .exception (d.relocate φ)
  | .struct d => .struct (d.relocate φ)
  | .enum d => .enum (d.relocate φ)
  | .sequence d => .sequence (d.relocate φ)
  | .dictionary d => .dictionary (d.relocate φ)
  | .const d => .const (d.relocate φ)

def relocateDefinitions : List Definition → List Definition
  | [] => []
  | d :: ds => d.relocate :: relocateDefinitions ds

end

mutual

theorem Module.tokens_relocate (d : Module) :
    (d.relocate φ).tokens = d.tokens.map (Token.relocate φ) := by
  cases d with
  | mk metadata keyword name left definitions right semicolon =>
    simp [Module.relocate, Module.tokens, definitionsTokens_relocate definitions]

theorem Definition.tokens_relocate (d : Definition) :
    (d.relocate φ).tokens = d.tokens.map (Token.relocate φ) := by
  cases d with
  | module d =>
    rw [Definition.relocate, Definition.tokens, Definition.tokens, Module.tokens_relocate d]
  | _ => simp [Definition.relocate, Definition.tokens]

theorem definitionsTokens_relocate (ds : List Definition) :
    definitionsTokens (relocateDefinitions φ ds) =
      (definitionsTokens ds).map (Token.relocate φ) := by
  cases ds with
  | nil => rfl
  | cons d ds =>
    rw [relocateDefinitions, definitionsTokens, definitionsTokens, List.map_append,
      Definition.tokens_relocate d, definitionsTokens_relocate ds]

end

def TopItem.relocate : TopItem → TopItem
  | pragmaOnce t => pragmaOnce (t.relocate φ)
  | includeFile t => includeFile (t.relocate φ)
  | metadata m => metadata (m.relocate φ)
  | module d => module (d.relocate φ)

theorem TopItem.tokens_relocate (i : TopItem) :
    (i.relocate φ).tokens = i.tokens.map (Token.relocate φ) := by
  cases i with
  | module d => exact d.tokens_relocate φ
  | _ => simp [relocate, tokens]

def File.relocate (f : File) : File :=
  f.map (TopItem.relocate φ)

theorem File.tokens_relocate (f : File) :
    File.tokens (File.relocate φ f) = (File.tokens f).map (Token.relocate φ) := by
  simp [relocate, tokens, List.flatMap_map, List.map_flatMap, TopItem.tokens_relocate]

end Grammar

end SliceIdl
