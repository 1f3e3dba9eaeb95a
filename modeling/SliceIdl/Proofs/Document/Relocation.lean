import SliceIdl.Document.Build
import SliceIdl.Proofs.Document.WellFormed
import SliceIdl.Proofs.Grammar.Relocation

/-!
# Documents at other positions

A tree with changed positions is built into the same document with its positions changed, or it is
rejected for the same reason at the changed position.
-/

set_option autoImplicit false

namespace SliceIdl

section
variable (φ : Position → Position)

def DataMember.relocate (m : DataMember) : DataMember :=
  { m with loc := φ m.loc }

def Param.relocate (p : Param) : Param :=
  { p with loc := φ p.loc }

def Operation.relocate (o : Operation) : Operation :=
  { o with loc := φ o.loc, params := o.params.map (Param.relocate φ) }

def Interface.relocate (d : Interface) : Interface :=
  { d with loc := φ d.loc, operations := d.operations.map (Operation.relocate φ) }

def Class.relocate (d : Class) : Class :=
  { d with
    loc := φ d.loc
    members := d.members.map (DataMember.relocate φ)
    operations := d.operations.map (Operation.relocate φ) }

def Forward.relocate (d : Forward) : Forward :=
  { d with loc := φ d.loc }

def Exception.relocate (d : Exception) : Exception :=
  { d with loc := φ d.loc, members := d.members.map (DataMember.relocate φ) }

def Struct.relocate (d : Struct) : Struct :=
  { d with loc := φ d.loc, members := d.members.map (DataMember.relocate φ) }

def Enumerator.relocate (e : Enumerator) : Enumerator :=
  { e with loc := φ e.loc }

def Enum.relocate (d : Enum) : Enum :=
  { d with loc := φ d.loc, enumerators := d.enumerators.map (Enumerator.relocate φ) }

def Sequence.relocate (d : Sequence) : Sequence :=
  { d with loc := φ d.loc }

def Dictionary.relocate (d : Dictionary) : Dictionary :=
  { d with loc := φ d.loc }

def Const.relocate (d : Const) : Const :=
  { d with loc := φ d.loc }

mutual

def Module.relocate : Module → Module
  | .mk name loc definitions metadata => .mk name (φ loc) (relocateDefinitions definitions) metadata

def Definition.relocate : Definition → Definition
  | .module d => .module d.relocate
  | .interface d => .interface (d.relocate φ)
  | .class d => .class (d.relocate φ)
  | .forward d => .forward (d.relocate φ)
  | .exception d => .exception (d.relocate φ)
  | .struct d => .struct (d.relocate φ)
  | .enum d => .enum (d.relocate φ)
  | .sequence d => .sequence (d.relocate φ)
  | .dictionary d => .dictionary (d.relocate φ)
  | .const d => .const (d.relocate φ)

def relocateDefinitions : List Definition → List Definition
  | [] => []
  | d :: ds => d.relocate :: relocateDefinitions ds

end

def Document.relocate (d : Document) : Document :=
  { d with modules := d.modules.map (Module.relocate φ) }

def Rejection.relocate : Rejection → Rejection
  | includeExtension target pos => includeExtension target (φ pos)
  | emptyStruct name pos => emptyStruct name (φ pos)
  | emptyEnum name pos => emptyEnum name (φ pos)
  | duplicateParam param operation pos => duplicateParam param operation (φ pos)
  | negativeTag tag pos => negativeTag tag (φ pos)
  | stringLiteral token pos => stringLiteral token (φ pos)
  | longNumeral digits => longNumeral digits
  | longNegativeTag => longNegativeTag

end

mutual

theorem Module.relocate_start (d : Module) : d.relocate (fun _ => .start) = d.unlocated := by
  cases d with
  | mk name loc definitions metadata =>
    rw [Module.relocate, Module.unlocated, relocateDefinitions_start definitions]

theorem Definition.relocate_start (d : Definition) :
    d.relocate (fun _ => .start) = d.unlocated := by
  cases d with
  | module d => rw [Definition.relocate, Definition.unlocated, Module.relocate_start d]
  | _ => rfl

theorem relocateDefinitions_start (ds : List Definition) :
    relocateDefinitions (fun _ => .start) ds = unlocatedDefinitions ds := by
  cases ds with
  | nil => rfl
  | cons d ds =>
    rw [relocateDefinitions, unlocatedDefinitions, Definition.relocate_start d,
      relocateDefinitions_start ds]

end

theorem Document.relocate_start (d : Document) :
    d.relocate (fun _ => .start) = d.unlocated := by
  simp [relocate, unlocated, Module.relocate_start]

namespace Grammar

variable {α α' β β' : Type} (φ : Position → Position)

/-- The result of a build with its positions changed. -/
def relocated (f : α → β) (x : Build α) : Build β :=
  (x.map f).mapError (Rejection.relocate φ)

variable {φ} {f : α → α'} {g : β → β'} {x : Build α} {x' : Build α'} {k : α → Build β}
  {k' : α' → Build β'}

theorem relocated_bind (hx : x' = relocated φ f x) (hk : ∀ a, k' (f a) = relocated φ g (k a)) :
    x' >>= k' = relocated φ g (x >>= k) := by
  subst hx
  cases x with
  | error e => rfl
  | ok a => exact hk a

theorem relocated_map {h : α → β} {h' : α' → β'} (hx : x' = relocated φ f x)
    (hh : ∀ a, h' (f a) = g (h a)) : h' <$> x' = relocated φ g (h <$> x) := by
  subst hx
  cases x with
  | error e => rfl
  | ok a => exact congrArg Except.ok (hh a)

theorem relocated_mapM {r : β → β'} {b : β → Build α} {b' : β' → Build α'}
    (h : ∀ a, b' (r a) = relocated φ f (b a)) (l : List β) :
    (l.map r).mapM b' = relocated φ (List.map f) (l.mapM b) := by
  induction l with
  | nil => rfl
  | cons a l ih =>
    rw [List.map_cons, List.mapM_cons, List.mapM_cons]
    exact relocated_bind (h a) fun _ => relocated_bind ih fun _ => rfl

theorem relocated_option {r : β → β'} {b : β → Build α} {b' : β' → Build α'}
    (h : ∀ a, b' (r a) = relocated φ f (b a)) (o : Option β) :
    (o.map r).mapM b' = relocated φ (Option.map f) (o.mapM b) := by
  cases o with
  | none => rfl
  | some a => exact relocated_map (h a) fun _ => rfl

variable (φ)

theorem stringValue_relocate (t : Tok .string) :
    stringValue (t.relocate φ) = relocated φ id (stringValue t) := by
  rw [stringValue, stringValue, Tok.relocate]
  cases Literal.ofToken? t.text <;> rfl

theorem intValue_relocate (t : Tok .int) :
    intValue (t.relocate φ) = relocated φ id (intValue t) := by
  rw [intValue, intValue, Tok.relocate]
  cases Literal.int t.text <;> rfl

@[simp]
theorem map_snd_relocateTail {kind : TokenKind} (f : α → α) (xs : List (Tok kind × α)) :
    (relocateTail φ f xs).map Prod.snd = (xs.map Prod.snd).map f := by
  simp [relocateTail]

theorem Metadata.build_relocate (m : Metadata) :
    (m.relocate φ).build = relocated φ id m.build := by
  have hstrings : (m.relocate φ).strings.toList = m.strings.toList.map (Tok.relocate φ) := by
    simp [StringList.toList, relocate, StringList.relocate]
  rw [build, build, hstrings, relocated_mapM (stringValue_relocate φ), List.map_id_fun]

theorem buildMetadata_relocate (m : Option Metadata) :
    buildMetadata (m.map (Metadata.relocate φ)) = relocated φ id (buildMetadata m) := by
  cases m with
  | none => rfl
  | some m => exact m.build_relocate φ

@[simp]
theorem Tok.text_relocate {kind : TokenKind} (t : Tok kind) : (t.relocate φ).text = t.text := rfl

@[simp]
theorem Tok.pos_relocate {kind : TokenKind} (t : Tok kind) : (t.relocate φ).pos = φ t.pos := rfl

@[simp]
theorem MemberType.type_relocate (t : MemberType) : (t.relocate φ).type = t.type.relocate φ := rfl

@[simp]
theorem Modifiers.isSome_relocate (m : Modifiers) :
    (m.relocate φ).isLocal.isSome = m.isLocal.isSome := by
  simp [relocate]

@[simp]
theorem ScopedName.text_relocate (n : ScopedName) : (n.relocate φ).text = n.text := by
  have hlead : n.lead.map (Tok.text ∘ Tok.relocate φ) = n.lead.map Tok.text := rfl
  simp [text, relocate, relocateTail, hlead, List.flatMap_map]

@[simp]
theorem ScopedName.loc_relocate (n : ScopedName) : (n.relocate φ).loc = φ n.loc := by
  rw [loc, loc, relocate]
  cases n.lead <;> rfl

@[simp]
theorem nameTexts_relocate {keyword : TokenKind} (n : Option (NameList keyword)) :
    nameTexts (n.map (NameList.relocate φ)) = nameTexts n := by
  cases n with
  | none => rfl
  | some n => simp [nameTexts, NameList.texts, NameList.relocate, relocateTail]

@[simp]
theorem TypeName.build_relocate (t : TypeName) : (t.relocate φ).build = t.build := by
  simp [build, relocate]

@[simp]
theorem MemberType.loc_relocate (t : MemberType) : (t.relocate φ).loc = φ t.loc := by
  rw [loc, loc, relocate]
  cases t.tag with
  | none => exact t.type.name.loc_relocate φ
  | some tag => rfl

@[simp]
theorem locAfter_relocate (m : Option Metadata) (loc : Position) :
    locAfter (m.map (Metadata.relocate φ)) (φ loc) = φ (locAfter m loc) := by
  cases m <;> rfl

@[simp]
theorem getD_pos_relocate {kind : TokenKind} (t : Option (Tok kind)) (loc : Position) :
    (t.map (Tok.pos ∘ Tok.relocate φ)).getD (φ loc) = φ ((t.map Tok.pos).getD loc) := by
  cases t <;> rfl

@[simp]
theorem Modifiers.locOr_relocate (m : Modifiers) (loc : Position) :
    (m.relocate φ).locOr (φ loc) = φ (m.locOr loc) := by
  simp [locOr, relocate]

theorem OptionalTag.build_relocate (t : OptionalTag) :
    (t.relocate φ).build = relocated φ id t.build := by
  refine relocated_bind (intValue_relocate φ t.number.value) fun n => ?_
  cases n with
  | ofNat n => rfl
  | negSucc n =>
    dsimp only [id_eq]
    generalize Text.tooLongToWrite (.negSucc n) = long
    cases long <;> rfl

theorem MemberType.tagNumber_relocate (t : MemberType) :
    (t.relocate φ).tagNumber = relocated φ id t.tagNumber := by
  have h := relocated_option (OptionalTag.build_relocate φ) t.tag
  rwa [Option.map_id_fun] at h

theorem ConstValue.build_relocate (v : ConstValue) :
    (v.relocate φ).build = relocated φ id v.build := by
  cases v with
  | int t => exact relocated_map (intValue_relocate φ t) fun _ => rfl
  | string t => exact relocated_map (stringValue_relocate φ t) fun _ => rfl
  | name n => exact congrArg (fun t => Except.ok (SliceIdl.ConstValue.name t)) (n.text_relocate φ)
  | _ => rfl

theorem DataMember.build_relocate (m : DataMember) :
    (m.relocate φ).build = relocated φ (SliceIdl.DataMember.relocate φ) m.build := by
  have hinitial : (m.initial.map (Initial.relocate φ)).mapM (fun i => i.value.build) =
      relocated φ (Option.map id) (m.initial.mapM fun i => i.value.build) :=
    relocated_option (fun i => i.value.build_relocate φ) m.initial
  refine relocated_bind (m.type.tagNumber_relocate φ) fun tag =>
    relocated_bind hinitial fun default =>
    relocated_bind (buildMetadata_relocate φ m.metadata) fun metadata => congrArg Except.ok ?_
  simp [relocate, SliceIdl.DataMember.relocate]

theorem Param.build_relocate (p : Param) :
    (p.relocate φ).build = relocated φ (SliceIdl.Param.relocate φ) p.build := by
  refine relocated_bind (p.type.tagNumber_relocate φ) fun tag =>
    relocated_bind (buildMetadata_relocate φ p.metadata) fun metadata => congrArg Except.ok ?_
  simp [relocate, SliceIdl.Param.relocate, loc]

theorem firstRepeat?_relocate (seen : List Text) (ps : List SliceIdl.Param) :
    firstRepeat? seen (ps.map (SliceIdl.Param.relocate φ)) =
      (firstRepeat? seen ps).map (SliceIdl.Param.relocate φ) := by
  induction ps generalizing seen with
  | nil => rfl
  | cons p ps ih =>
    rw [List.map_cons, firstRepeat?, firstRepeat?, ih]
    by_cases h : p.name ∈ seen <;> simp [h, SliceIdl.Param.relocate]

theorem ParamList.toList_relocate (p : ParamList) :
    (p.relocate φ).toList = p.toList.map (Param.relocate φ) := by
  simp [toList, relocate]

theorem Operation.build_relocate (o : Operation) :
    (o.relocate φ).build = relocated φ (SliceIdl.Operation.relocate φ) o.build := by
  have hparams : (((o.params.map (ParamList.relocate φ)).map ParamList.toList).getD []).mapM
      Param.build = relocated φ (List.map (SliceIdl.Param.relocate φ))
        (((o.params.map ParamList.toList).getD []).mapM Param.build) := by
    rw [← relocated_mapM (Param.build_relocate φ)]
    cases o.params with
    | none => rfl
    | some p => exact congrArg (List.mapM Param.build) (p.toList_relocate φ)
  refine relocated_bind hparams fun params => ?_
  dsimp only
  rw [firstRepeat?_relocate]
  cases firstRepeat? [] params with
  | some p => rfl
  | none =>
    refine relocated_bind (o.type.tagNumber_relocate φ) fun returnTag =>
      relocated_bind (buildMetadata_relocate φ o.metadata) fun metadata => congrArg Except.ok ?_
    simp [relocate, SliceIdl.Operation.relocate]

theorem Interface.build_relocate (d : Interface) :
    (d.relocate φ).build = relocated φ (SliceIdl.Interface.relocate φ) d.build := by
  refine relocated_bind (relocated_mapM (Operation.build_relocate φ) d.body.items) fun operations =>
    relocated_bind (buildMetadata_relocate φ d.modifiers.metadata) fun metadata =>
    congrArg Except.ok ?_
  simp [relocate, SliceIdl.Interface.relocate]

theorem Forward.build_relocate {keyword : TokenKind} (kind : ForwardKind) (d : Forward keyword) :
    (d.relocate φ).build kind = relocated φ (SliceIdl.Forward.relocate φ) (d.build kind) := by
  refine relocated_bind (buildMetadata_relocate φ d.modifiers.metadata) fun metadata =>
    congrArg Except.ok ?_
  simp [relocate, SliceIdl.Forward.relocate]

theorem ClassItem.member?_relocate (i : ClassItem) :
    (i.relocate φ).member? = i.member?.map (DataMember.relocate φ) := by
  cases i <;> rfl

theorem ClassItem.operation?_relocate (i : ClassItem) :
    (i.relocate φ).operation? = i.operation?.map (Operation.relocate φ) := by
  cases i <;> rfl

theorem filterMap_map_comm {p : α → Option β} {f : α → α} {g : β → β}
    (h : ∀ a, p (f a) = (p a).map g) (xs : List α) :
    (xs.map f).filterMap p = (xs.filterMap p).map g := by
  rw [List.filterMap_map, List.map_filterMap]
  exact congrArg (List.filterMap · xs) (funext h)

theorem Class.build_relocate (d : Class) :
    (d.relocate φ).build = relocated φ (SliceIdl.Class.relocate φ) d.build := by
  have hid : (d.compactId.map (ParenInt.relocate φ)).mapM (fun p => intValue p.value) =
      relocated φ (Option.map id) (d.compactId.mapM fun p => intValue p.value) := by
    refine relocated_option (fun p => ?_) d.compactId
    exact intValue_relocate φ p.value
  have hmembers := relocated_mapM (DataMember.build_relocate φ)
    (d.body.items.filterMap ClassItem.member?)
  have hoperations := relocated_mapM (Operation.build_relocate φ)
    (d.body.items.filterMap ClassItem.operation?)
  rw [← filterMap_map_comm (ClassItem.member?_relocate φ)] at hmembers
  rw [← filterMap_map_comm (ClassItem.operation?_relocate φ)] at hoperations
  refine relocated_bind hid fun compactId => relocated_bind hmembers fun members =>
    relocated_bind hoperations fun operations =>
    relocated_bind (buildMetadata_relocate φ d.modifiers.metadata) fun metadata =>
    congrArg Except.ok ?_
  simp [relocate, SliceIdl.Class.relocate, Base.relocate, Function.comp_def]

theorem Exception.build_relocate (d : Exception) :
    (d.relocate φ).build = relocated φ (SliceIdl.Exception.relocate φ) d.build := by
  refine relocated_bind (relocated_mapM (DataMember.build_relocate φ) d.body.items) fun members =>
    relocated_bind (buildMetadata_relocate φ d.modifiers.metadata) fun metadata =>
    congrArg Except.ok ?_
  simp [relocate, SliceIdl.Exception.relocate, Base.relocate, Function.comp_def]

theorem Struct.build_relocate (d : Struct) :
    (d.relocate φ).build = relocated φ (SliceIdl.Struct.relocate φ) d.build := by
  refine relocated_bind (relocated_mapM (DataMember.build_relocate φ) d.body.items)
    fun members => ?_
  cases members with
  | nil =>
    refine congrArg Except.error ?_
    simp [relocate, Rejection.relocate]
  | cons m ms =>
    refine relocated_bind (buildMetadata_relocate φ d.modifiers.metadata) fun metadata =>
      congrArg Except.ok ?_
    simp [relocate, SliceIdl.Struct.relocate]

theorem Enumerator.build_relocate (e : Enumerator) :
    (e.relocate φ).build = relocated φ (SliceIdl.Enumerator.relocate φ) e.build := by
  have hvalue : (e.value.map (EnumValue.relocate φ)).mapM (fun v => intValue v.value) =
      relocated φ (Option.map id) (e.value.mapM fun v => intValue v.value) := by
    refine relocated_option (fun v => ?_) e.value
    exact intValue_relocate φ v.value
  refine relocated_bind hvalue fun value => congrArg Except.ok ?_
  simp [relocate, SliceIdl.Enumerator.relocate]

theorem EnumeratorList.toList_relocate (l : EnumeratorList) :
    (l.relocate φ).toList = l.toList.map (Enumerator.relocate φ) := by
  simp [toList, relocate]

theorem Enum.build_relocate (d : Enum) :
    (d.relocate φ).build = relocated φ (SliceIdl.Enum.relocate φ) d.build := by
  have henumerators : (((d.enumerators.map (EnumeratorList.relocate φ)).map
      EnumeratorList.toList).getD []).mapM Enumerator.build =
        relocated φ (List.map (SliceIdl.Enumerator.relocate φ))
          (((d.enumerators.map EnumeratorList.toList).getD []).mapM Enumerator.build) := by
    rw [← relocated_mapM (Enumerator.build_relocate φ)]
    cases d.enumerators with
    | none => rfl
    | some l => exact congrArg (List.mapM Enumerator.build) (l.toList_relocate φ)
  refine relocated_bind henumerators fun enumerators => ?_
  cases enumerators with
  | nil =>
    refine congrArg Except.error ?_
    simp [relocate, Rejection.relocate]
  | cons e es =>
    refine relocated_bind (buildMetadata_relocate φ d.modifiers.metadata) fun metadata =>
      congrArg Except.ok ?_
    simp [relocate, SliceIdl.Enum.relocate]

theorem Sequence.build_relocate (d : Sequence) :
    (d.relocate φ).build = relocated φ (SliceIdl.Sequence.relocate φ) d.build := by
  refine relocated_bind (buildMetadata_relocate φ d.element.metadata) fun elementMetadata =>
    relocated_bind (buildMetadata_relocate φ d.modifiers.metadata) fun metadata =>
    congrArg Except.ok ?_
  simp [relocate, SliceIdl.Sequence.relocate, AnnotatedType.relocate]

theorem Dictionary.build_relocate (d : Dictionary) :
    (d.relocate φ).build = relocated φ (SliceIdl.Dictionary.relocate φ) d.build := by
  refine relocated_bind (buildMetadata_relocate φ d.key.metadata) fun keyMetadata =>
    relocated_bind (buildMetadata_relocate φ d.value.metadata) fun valueMetadata =>
    relocated_bind (buildMetadata_relocate φ d.modifiers.metadata) fun metadata =>
    congrArg Except.ok ?_
  simp [relocate, SliceIdl.Dictionary.relocate, AnnotatedType.relocate]

theorem Const.build_relocate (d : Const) :
    (d.relocate φ).build = relocated φ (SliceIdl.Const.relocate φ) d.build := by
  refine relocated_bind (d.initial.value.build_relocate φ) fun value =>
    relocated_bind (buildMetadata_relocate φ d.type.metadata) fun typeMetadata =>
    relocated_bind (buildMetadata_relocate φ d.metadata) fun metadata => congrArg Except.ok ?_
  simp [relocate, SliceIdl.Const.relocate, AnnotatedType.relocate]

mutual

theorem Module.build_relocate (d : Module) :
    (d.relocate φ).build = relocated φ (SliceIdl.Module.relocate φ) d.build := by
  cases d with
  | mk metadata keyword name left definitions right semicolon =>
    refine relocated_bind (buildMetadata_relocate φ metadata) fun strings =>
      relocated_bind (buildDefinitions_relocate definitions) fun definitions =>
      congrArg Except.ok ?_
    simp [SliceIdl.Module.relocate]

theorem Definition.build_relocate (d : Definition) :
    (d.relocate φ).build = relocated φ (SliceIdl.Definition.relocate φ) d.build := by
  cases d with
  | module d => exact relocated_map (Module.build_relocate d) fun _ => rfl
  | interface d => exact relocated_map (d.build_relocate φ) fun _ => rfl
  | interfaceForward d => exact relocated_map (d.build_relocate φ .ofInterface) fun _ => rfl
  | «class» d => exact relocated_map (d.build_relocate φ) fun _ => rfl
  | classForward d => exact relocated_map (d.build_relocate φ .ofClass) fun _ => rfl
  | exception d => exact relocated_map (d.build_relocate φ) fun _ => rfl
  | struct d => exact relocated_map (d.build_relocate φ) fun _ => rfl
  | enum d => exact relocated_map (d.build_relocate φ) fun _ => rfl
  | sequence d => exact relocated_map (d.build_relocate φ) fun _ => rfl
  | dictionary d => exact relocated_map (d.build_relocate φ) fun _ => rfl
  | const d => exact relocated_map (d.build_relocate φ) fun _ => rfl

theorem buildDefinitions_relocate (ds : List Definition) :
    buildDefinitions (relocateDefinitions φ ds) =
      relocated φ (SliceIdl.relocateDefinitions φ) (buildDefinitions ds) := by
  cases ds with
  | nil => rfl
  | cons d ds =>
    exact relocated_bind (Definition.build_relocate d) fun _ =>
      relocated_bind (buildDefinitions_relocate ds) fun _ => rfl

end

theorem includeName_relocate (t : Tok .includeFile) :
    includeName (t.relocate φ) = relocated φ id (includeName t) := by
  rw [includeName, includeName, Tok.relocate]
  cases includeName? (includeTarget t.text) <;> rfl

def Entry.relocate : Entry → Entry
  | module m => module (m.relocate φ)
  | e => e

theorem TopItem.build_relocate (i : TopItem) :
    (i.relocate φ).build = relocated φ (Entry.relocate φ) i.build := by
  cases i with
  | pragmaOnce t => rfl
  | includeFile t => exact relocated_map (includeName_relocate φ t) fun _ => rfl
  | metadata m => exact relocated_map (m.inner.build_relocate φ) fun _ => rfl
  | module d => exact relocated_map (d.build_relocate φ) fun _ => rfl

theorem documentOf_relocate (es : List Entry) :
    documentOf (es.map (Entry.relocate φ)) = (documentOf es).relocate φ := by
  have hpragma : ∀ e : Entry, (e.relocate φ).isPragmaOnce = e.isPragmaOnce := by
    intro e
    cases e <;> rfl
  have hinclude : ∀ e : Entry, (e.relocate φ).includeName? = e.includeName? := by
    intro e
    cases e <;> rfl
  have hstrings : ∀ e : Entry, (e.relocate φ).strings = e.strings := by
    intro e
    cases e <;> rfl
  have hmodule : ∀ e : Entry,
      (e.relocate φ).module? = e.module?.map (SliceIdl.Module.relocate φ) := by
    intro e
    cases e <;> rfl
  simp [documentOf, Document.relocate, List.any_map, List.filterMap_map, List.flatMap_map,
    List.map_filterMap, Function.comp_def, hpragma, hinclude, hstrings, hmodule]

/-- The document of a file at other positions is the document of the file at other positions. -/
theorem File.build_relocate (f : File) :
    File.build (File.relocate φ f) = relocated φ (Document.relocate φ) (File.build f) :=
  relocated_map (relocated_mapM (TopItem.build_relocate φ) f) (documentOf_relocate φ)

end Grammar

end SliceIdl
