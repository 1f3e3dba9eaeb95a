import SliceIdl.Document.Json
import SliceIdl.Proofs.Grammar.Exactness
import SliceIdl.Proofs.Json.Printing

/-!
# The float literals of a source

Every float literal of a source becomes one binary64 number of the document, in the order of the
source, and no other token becomes one. They can only stand behind the equal sign of a constant or
of a data member; everything else is quiet.
-/

set_option autoImplicit false

namespace SliceIdl

def Token.float? (t : Token) : Option Binary64 :=
  if t.kind = .float then some (Literal.float t.text) else none

namespace Grammar

def floats (ts : List Token) : List Binary64 :=
  ts.filterMap Token.float?

@[simp]
theorem floats_append (ts us : List Token) : floats (ts ++ us) = floats ts ++ floats us :=
  List.filterMap_append

theorem floats_float (t : Tok .float) : floats t.tokens = [Literal.float t.text] := rfl

section
variable {α : Type} {kind : TokenKind} {f : α → List Token}

@[simp]
theorem floats_tok (h : kind ≠ .float) (t : Tok kind) : floats t.tokens = [] := by
  have hnone : t.token.float? = none := if_neg h
  rw [floats, Tok.tokens, List.filterMap_cons_none hnone, List.filterMap_nil]

@[simp]
theorem floats_opt (h : ∀ a, floats (f a) = []) (o : Option α) : floats (optTokens f o) = [] := by
  cases o with
  | none => rfl
  | some a => exact h a

@[simp]
theorem floats_tail (hk : kind ≠ .float) (h : ∀ a, floats (f a) = [])
    (rest : List (Tok kind × α)) : floats (tailTokens f rest) = [] := by
  induction rest with
  | nil => rfl
  | cons part rest ih => simp [tailTokens, hk, h, ih]

@[simp]
theorem floats_flatMap (h : ∀ a, floats (f a) = []) (xs : List α) : floats (xs.flatMap f) = [] := by
  induction xs with
  | nil => rfl
  | cons x xs ih => simp [h, ih]

@[simp]
theorem floats_body (b : Body α) : floats (b.tokens f) = floats (b.items.flatMap f) := by
  simp [Body.tokens]

end

@[simp]
theorem floats_metadata (m : Metadata) : floats m.tokens = [] := by
  simp [Metadata.tokens, StringList.tokens]

@[simp]
theorem floats_scopedName (n : ScopedName) : floats n.tokens = [] := by
  simp [ScopedName.tokens]

@[simp]
theorem floats_nameList {keyword : TokenKind} (h : keyword ≠ .float) (n : NameList keyword) :
    floats n.tokens = [] := by
  simp [NameList.tokens, h]

@[simp]
theorem floats_base (b : Base) : floats b.tokens = [] := by
  simp [Base.tokens]

@[simp]
theorem floats_typeName (t : TypeName) : floats t.tokens = [] := by
  simp [TypeName.tokens]

@[simp]
theorem floats_annotatedType (t : AnnotatedType) : floats t.tokens = [] := by
  simp [AnnotatedType.tokens]

@[simp]
theorem floats_parenInt (p : ParenInt) : floats p.tokens = [] := by
  simp [ParenInt.tokens]

@[simp]
theorem floats_memberType (t : MemberType) : floats t.tokens = [] := by
  simp [MemberType.tokens, OptionalTag.tokens]

@[simp]
theorem floats_param (p : Param) : floats p.tokens = [] := by
  simp [Param.tokens]

@[simp]
theorem floats_paramList (ps : ParamList) : floats ps.tokens = [] := by
  simp [ParamList.tokens]

@[simp]
theorem floats_operation (o : Operation) : floats o.tokens = [] := by
  simp [Operation.tokens]

@[simp]
theorem floats_modifiers (m : Modifiers) : floats m.tokens = [] := by
  simp [Modifiers.tokens]

@[simp]
theorem floats_interface (d : Interface) : floats d.tokens = [] := by
  simp [Interface.tokens]

@[simp]
theorem floats_forward {keyword : TokenKind} (h : keyword ≠ .float) (d : Forward keyword) :
    floats d.tokens = [] := by
  simp [Forward.tokens, h]

@[simp]
theorem floats_enumValue (v : EnumValue) : floats v.tokens = [] := by
  simp [EnumValue.tokens]

@[simp]
theorem floats_enumerator (e : Enumerator) : floats e.tokens = [] := by
  simp [Enumerator.tokens]

@[simp]
theorem floats_enumeratorList (es : EnumeratorList) : floats es.tokens = [] := by
  simp [EnumeratorList.tokens]

@[simp]
theorem floats_enum (d : Enum) : floats d.tokens = [] := by
  simp [Enum.tokens]

@[simp]
theorem floats_sequence (d : Sequence) : floats d.tokens = [] := by
  simp [Sequence.tokens]

@[simp]
theorem floats_dictionary (d : Dictionary) : floats d.tokens = [] := by
  simp [Dictionary.tokens]

end Grammar

namespace Json

@[simp]
theorem floats_text (t : Text) : (text t).floats = [] := by
  rw [text, floats]

@[simp]
theorem floats_bool (b : Bool) : (bool b).floats = [] := by
  rw [floats]

@[simp]
theorem floats_int (n : Int) : (int n).floats = [] := by
  rw [floats]

@[simp]
theorem floats_str (s : List CodePoint) : (str s).floats = [] := by
  rw [floats]

@[simp]
theorem floats_float (x : Binary64) : (float x).floats = [x] := by
  rw [floats]

theorem itemFloats_eq (vs : List Json) : itemFloats vs = vs.flatMap floats := by
  induction vs with
  | nil => rfl
  | cons v vs ih => rw [itemFloats, ih, List.flatMap_cons]

theorem floats_arr_map {α : Type} (f : α → Json) (xs : List α) :
    (arr (xs.map f)).floats = xs.flatMap fun x => (f x).floats := by
  rw [floats, itemFloats_eq, List.flatMap_map]

@[simp]
theorem floats_arr {α : Type} {f : α → Json} (h : ∀ a, (f a).floats = []) (xs : List α) :
    (arr (xs.map f)).floats = [] := by
  rw [floats_arr_map, List.flatMap_eq_nil_iff]
  exact fun x _ => h x

@[simp]
theorem floats_object (members : List (String × Json)) :
    (object members).floats = members.flatMap fun m => m.2.floats := by
  rw [object, floats]
  induction members with
  | nil => rfl
  | cons m members ih => rw [List.map_cons, memberFloats, ih, List.flatMap_cons]

@[simp]
theorem floats_node (kind : String) (fields : List (String × Json)) :
    (node kind fields).floats = fields.flatMap fun m => m.2.floats := by
  simp [node, ofString]

@[simp]
theorem floats_ofOption {α : Type} {f : α → Json} (h : ∀ a, (f a).floats = []) (o : Option α) :
    (ofOption f o).floats = [] := by
  cases o with
  | none => rw [ofOption, floats]
  | some a => exact h a

@[simp]
theorem floats_texts (ts : List Text) : (texts ts).floats = [] := by
  simp [texts]

@[simp]
theorem floats_literals (ss : List Literal) : (literals ss).floats = [] := by
  simp [literals]

@[simp]
theorem floats_natOption (o : Option Nat) : (natOption o).floats = [] := by
  simp [natOption]

end Json

@[simp]
theorem Position.floats_toJson (p : Position) : p.toJson.floats = [] := by
  simp [Position.toJson]

@[simp]
theorem TypeRef.floats_toJson (t : TypeRef) : t.toJson.floats = [] := by
  simp [TypeRef.toJson]

@[simp]
theorem Param.floats_toJson (p : Param) : p.toJson.floats = [] := by
  simp [Param.toJson]

@[simp]
theorem Operation.floats_toJson (o : Operation) : o.toJson.floats = [] := by
  simp [Operation.toJson]

@[simp]
theorem Interface.floats_toJson (d : Interface) : d.toJson.floats = [] := by
  simp [Interface.toJson]

@[simp]
theorem Forward.floats_toJson (d : Forward) : d.toJson.floats = [] := by
  have hkind : d.kind.toJson.floats = [] := by
    cases d.kind <;> simp [ForwardKind.toJson, Json.ofString]
  simp [Forward.toJson, hkind]

@[simp]
theorem Enumerator.floats_toJson (e : Enumerator) : e.toJson.floats = [] := by
  simp [Enumerator.toJson]

@[simp]
theorem Enum.floats_toJson (d : Enum) : d.toJson.floats = [] := by
  simp [Enum.toJson]

@[simp]
theorem Sequence.floats_toJson (d : Sequence) : d.toJson.floats = [] := by
  simp [Sequence.toJson]

@[simp]
theorem Dictionary.floats_toJson (d : Dictionary) : d.toJson.floats = [] := by
  simp [Dictionary.toJson]

namespace Grammar

section
variable {α β : Type}

theorem build_bind_eq_ok {x : Build α} {k : α → Build β} {b : β} :
    (x >>= k) = .ok b ↔ ∃ a, x = .ok a ∧ k a = .ok b := by
  cases x <;> simp [bind, Except.bind]

theorem build_map_eq_ok {x : Build α} {g : α → β} {b : β} :
    (g <$> x) = .ok b ↔ ∃ a, x = .ok a ∧ g a = b := by
  cases x <;> simp [Functor.map, Except.map]

theorem build_pure_eq_ok {a b : α} : (pure a : Build α) = .ok b ↔ a = b := by
  simp [pure, Except.pure]

/-- The values of the float literals of a tree are the numbers of what is built of it. -/
def Keeps (tokens : α → List Token) (build : α → Build β) (json : β → Json) : Prop :=
  ∀ x d, build x = .ok d → (json d).floats = floats (tokens x)

variable {tokens : α → List Token} {build : α → Build β} {json : β → Json}

theorem Keeps.mapM (h : Keeps tokens build json) {xs : List α} {ds : List β}
    (hds : xs.mapM build = .ok ds) :
    (ds.flatMap fun d => (json d).floats) = floats (xs.flatMap tokens) := by
  induction xs generalizing ds with
  | nil =>
    cases hds
    rfl
  | cons x xs ih =>
    rw [List.mapM_cons] at hds
    simp only [build_bind_eq_ok, build_pure_eq_ok] at hds
    obtain ⟨d, hd, ds, hrest, rfl⟩ := hds
    rw [List.flatMap_cons, List.flatMap_cons, floats_append, h x d hd, ih hrest]

end

theorem keeps_constValue : Keeps ConstValue.tokens ConstValue.build ConstValue.toJson := by
  intro v d h
  cases v with
  | int t =>
    obtain ⟨n, -, rfl⟩ := build_map_eq_ok.1 h
    simp [ConstValue.toJson, ConstValue.tokens, Json.ofString]
  | string t =>
    obtain ⟨s, -, rfl⟩ := build_map_eq_ok.1 h
    simp [ConstValue.toJson, ConstValue.tokens, Json.ofString]
  | float t =>
    obtain rfl := build_pure_eq_ok.1 h
    simp [ConstValue.toJson, ConstValue.tokens, Json.ofString, floats_float]
  | true t | false t | name n =>
    obtain rfl := build_pure_eq_ok.1 h
    simp [ConstValue.toJson, ConstValue.tokens, Json.ofString]

theorem keeps_initial {o : Option Initial} {v : Option SliceIdl.ConstValue}
    (h : o.mapM (fun i => i.value.build) = .ok v) :
    (Json.ofOption ConstValue.toJson v).floats = floats (optTokens Initial.tokens o) := by
  cases o with
  | none =>
    cases h
    rw [Json.ofOption, Json.floats]
    rfl
  | some i =>
    rw [Option.mapM_some] at h
    obtain ⟨v, hv, rfl⟩ := build_map_eq_ok.1 h
    simp [Json.ofOption, optTokens, Initial.tokens, keeps_constValue _ _ hv]

theorem keeps_dataMember : Keeps DataMember.tokens DataMember.build DataMember.toJson := by
  intro m d h
  simp only [DataMember.build, build_bind_eq_ok, build_pure_eq_ok] at h
  obtain ⟨tag, -, default, hdefault, metadata, -, rfl⟩ := h
  simp [DataMember.toJson, DataMember.tokens, keeps_initial hdefault]

theorem Keeps.body {xs : List DataMember} {ds : List SliceIdl.DataMember}
    (h : xs.mapM DataMember.build = .ok ds) :
    (Json.arr (ds.map DataMember.toJson)).floats = floats (xs.flatMap DataMember.tokens) := by
  rw [Json.floats_arr_map, keeps_dataMember.mapM h]

theorem floats_classItems (items : List ClassItem) : floats (items.flatMap ClassItem.tokens) =
    floats ((items.filterMap ClassItem.member?).flatMap DataMember.tokens) := by
  induction items with
  | nil => rfl
  | cons item items ih =>
    cases item with
    | member m =>
      have hm : (ClassItem.member m).member? = some m := rfl
      simp [ClassItem.tokens, List.filterMap_cons_some hm, ih]
    | operation o =>
      have ho : (ClassItem.operation o).member? = none := rfl
      simp [ClassItem.tokens, List.filterMap_cons_none ho, ih]

theorem keeps_class : Keeps Class.tokens Class.build Class.toJson := by
  intro x d h
  simp only [Class.build, build_bind_eq_ok, build_pure_eq_ok] at h
  obtain ⟨compactId, -, members, hmembers, operations, -, metadata, -, rfl⟩ := h
  simp [Class.toJson, Class.tokens, Keeps.body hmembers, floats_classItems]

theorem keeps_exception : Keeps Exception.tokens Exception.build Exception.toJson := by
  intro x d h
  simp only [Exception.build, build_bind_eq_ok, build_pure_eq_ok] at h
  obtain ⟨members, hmembers, metadata, -, rfl⟩ := h
  simp [Exception.toJson, Exception.tokens, Keeps.body hmembers]

theorem keeps_struct : Keeps Struct.tokens Struct.build Struct.toJson := by
  intro x d h
  simp only [Struct.build, build_bind_eq_ok] at h
  obtain ⟨members, hmembers, h⟩ := h
  split at h
  · cases h
  · simp only [build_bind_eq_ok, build_pure_eq_ok] at h
    obtain ⟨metadata, -, rfl⟩ := h
    simp [Struct.toJson, Struct.tokens, Keeps.body hmembers]

theorem keeps_const : Keeps Const.tokens Const.build Const.toJson := by
  intro x d h
  simp only [Const.build, build_bind_eq_ok, build_pure_eq_ok] at h
  obtain ⟨value, hvalue, typeMetadata, -, metadata, -, rfl⟩ := h
  simp [Const.toJson, Const.tokens, Initial.tokens, keeps_constValue _ _ hvalue]

mutual

theorem keeps_module : (m : Module) → (d : SliceIdl.Module) → m.build = .ok d →
    d.toJson.floats = floats m.tokens
  | .mk metadata keyword name left definitions right semicolon, d, h => by
    simp only [Module.build, build_bind_eq_ok, build_pure_eq_ok] at h
    obtain ⟨strings, -, ds, hds, rfl⟩ := h
    simp [SliceIdl.Module.toJson, Module.tokens, keeps_definitions definitions ds hds]

theorem keeps_definition : (x : Definition) → (d : SliceIdl.Definition) → x.build = .ok d →
    d.toJson.floats = floats x.tokens
  | .module m, d, h => by
    rw [Definition.build] at h
    obtain ⟨d', hd, rfl⟩ := build_map_eq_ok.1 h
    exact keeps_module m d' hd
  | .class x, d, h => by
    rw [Definition.build] at h
    obtain ⟨d', hd, rfl⟩ := build_map_eq_ok.1 h
    exact keeps_class x d' hd
  | .exception x, d, h => by
    rw [Definition.build] at h
    obtain ⟨d', hd, rfl⟩ := build_map_eq_ok.1 h
    exact keeps_exception x d' hd
  | .struct x, d, h => by
    rw [Definition.build] at h
    obtain ⟨d', hd, rfl⟩ := build_map_eq_ok.1 h
    exact keeps_struct x d' hd
  | .const x, d, h => by
    rw [Definition.build] at h
    obtain ⟨d', hd, rfl⟩ := build_map_eq_ok.1 h
    exact keeps_const x d' hd
  | .interface x, d, h | .interfaceForward x, d, h | .classForward x, d, h | .enum x, d, h
  | .sequence x, d, h | .dictionary x, d, h => by
    rw [Definition.build] at h
    obtain ⟨d', -, rfl⟩ := build_map_eq_ok.1 h
    simp [SliceIdl.Definition.toJson, Definition.tokens]

theorem keeps_definitions : (xs : List Definition) → (ds : List SliceIdl.Definition) →
    buildDefinitions xs = .ok ds →
      (Json.arr (definitionsJson ds)).floats = floats (definitionsTokens xs)
  | [], ds, h => by
    rw [buildDefinitions] at h
    obtain rfl := build_pure_eq_ok.1 h
    rw [definitionsJson, Json.floats]
    rfl
  | x :: xs, ds, h => by
    simp only [buildDefinitions, build_bind_eq_ok, build_pure_eq_ok] at h
    obtain ⟨d, hd, ds, hds, rfl⟩ := h
    have hrest := keeps_definitions xs ds hds
    rw [Json.floats] at hrest
    rw [definitionsJson, definitionsTokens, floats_append, Json.floats, Json.itemFloats,
      keeps_definition x d hd, hrest]

end

theorem keeps_file {f : File} {es : List Entry} (h : f.mapM TopItem.build = .ok es) :
    (Json.arr ((es.filterMap Entry.module?).map SliceIdl.Module.toJson)).floats =
      floats (File.tokens f) := by
  rw [Json.floats_arr_map]
  induction f generalizing es with
  | nil =>
    cases h
    rfl
  | cons item f ih =>
    rw [List.mapM_cons] at h
    simp only [build_bind_eq_ok, build_pure_eq_ok] at h
    obtain ⟨e, he, es, hes, rfl⟩ := h
    rw [File.tokens, List.flatMap_cons, floats_append, ← File.tokens, ← ih hes]
    cases item with
    | pragmaOnce t =>
      obtain rfl := build_pure_eq_ok.1 he
      have hnone : Entry.pragmaOnce.module? = none := rfl
      simp [TopItem.tokens, List.filterMap_cons_none hnone]
    | includeFile t =>
      obtain ⟨name, -, rfl⟩ := build_map_eq_ok.1 he
      have hnone : (Entry.includeName name).module? = none := rfl
      simp [TopItem.tokens, List.filterMap_cons_none hnone]
    | metadata m =>
      obtain ⟨strings, -, rfl⟩ := build_map_eq_ok.1 he
      have hnone : (Entry.metadata strings).module? = none := rfl
      simp [TopItem.tokens, FileMetadata.tokens, List.filterMap_cons_none hnone]
    | module m =>
      obtain ⟨d, hd, rfl⟩ := build_map_eq_ok.1 he
      have hsome : (Entry.module d).module? = some d := rfl
      simp [TopItem.tokens, List.filterMap_cons_some hsome, keeps_module m d hd]

end Grammar

/-- The binary64 numbers of a document are the values of the float literals of its source. -/
theorem Document.floats_toJson {source : Text} {d : Document}
    (h : Document.parse source = .ok d) :
    d.toJson.floats = Grammar.floats (Scan.ofText source).tokens := by
  obtain ⟨f, hf, hd⟩ := Document.parse_eq_ok.1 h
  obtain ⟨es, hes, rfl⟩ := Grammar.build_map_eq_ok.1 hd
  rw [← (parseFile_eq_ok.1 hf).2, ← Grammar.keeps_file hes]
  simp [Document.toJson, Grammar.documentOf]

end SliceIdl
