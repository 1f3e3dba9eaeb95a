import SliceIdl.Proofs.Document.Reading

/-!
# Spelled definitions are read

For each kind of definition: the tokens of a spelling are those of a tree, and the tree is built as
the definition that is spelled, up to positions.
-/

set_option autoImplicit false

namespace SliceIdl
open Grammar

theorem reads_dataMember (m : DataMember) :
    Reads m.spelling Grammar.DataMember.tokens
      (Builds Grammar.DataMember.build DataMember.unlocated m) := by
  refine (((((reads_bracketed m.metadata).mul (reads_taggedType m.tag m.type)).mul
    (reads_ident m.name)).mul (Reads.elim m.default fun v _ => reads_initial v)).mul
    Reads.mark).of (fun x => ⟨x.1.1.1.1, x.1.1.1.2, x.1.1.2, x.1.2, x.2⟩) (fun _ => rfl) ?_
  rintro ⟨⟨⟨⟨ss, type⟩, name⟩, initial⟩, semicolon⟩
    ⟨⟨⟨⟨hss, htag, htype⟩, hname⟩, hinitial⟩, -⟩
  have hdefault := optionMapM_eq_ok hinitial
  dsimp only at *
  simp only [Builds, Grammar.DataMember.build, htag, hdefault, hss]
  exact ⟨_, rfl, by simp [DataMember.unlocated, htype, hname]⟩

theorem reads_param (p : Param) :
    Reads p.spelling Grammar.Param.tokens (Builds Grammar.Param.build Param.unlocated p) := by
  refine ((((reads_bracketed p.metadata).mul (Reads.keyword.flag p.out)).mul
    (reads_taggedType p.tag p.type)).mul (reads_ident p.name)).of
    (fun x => ⟨x.1.1.1, x.1.1.2, x.1.2, x.2⟩) (fun _ => rfl) ?_
  rintro ⟨⟨⟨ss, out⟩, type⟩, name⟩ ⟨⟨⟨hss, hout⟩, htag, htype⟩, hname⟩
  dsimp only at *
  simp only [Builds, Grammar.Param.build, htag, hss]
  exact ⟨_, rfl, by simp [Param.unlocated, hout, htype, hname]⟩

theorem reads_params (ps : List Param) :
    Reads (Spelling.listed (ps.map Param.spelling)) (optTokens ParamList.tokens) fun x =>
      List.Forall₂ (Builds Grammar.Param.build Param.unlocated) ps
        ((x.map ParamList.toList).getD []) := by
  cases ps with
  | nil => exact Reads.none.of id (fun _ => rfl) (by rintro x rfl; exact .nil)
  | cons p ps =>
    exact (Reads.listed p ps fun p' _ => reads_param p').of (fun x => some ⟨x.1, x.2⟩)
      (fun _ => rfl) fun _ hx => hx

theorem firstRepeat?_eq_none {seen : List Text} {ps : List Param} :
    firstRepeat? seen ps = none ↔ (ps.map Param.name).Nodup ∧ ∀ p ∈ ps, p.name ∉ seen := by
  induction ps generalizing seen with
  | nil => simp [firstRepeat?]
  | cons p ps ih =>
    rw [firstRepeat?]
    split
    · next h => simp [h]
    · next h =>
      rw [ih, List.map_cons, List.nodup_cons, List.forall_mem_cons]
      simp only [List.mem_cons, not_or, List.mem_map, not_exists, not_and]
      grind

theorem map_name_eq {ps ps' : List Param}
    (h : ps'.map Param.unlocated = ps.map Param.unlocated) :
    ps'.map Param.name = ps.map Param.name := by
  simpa [Function.comp_def, Param.unlocated] using congrArg (List.map Param.name) h

theorem reads_operation (o : Operation) (ho : o.WellFormed) :
    Reads o.spelling Grammar.Operation.tokens
      (Builds Grammar.Operation.build Operation.unlocated o) := by
  refine (((((((((reads_bracketed o.metadata).mul (Reads.keyword.flag o.idempotent)).mul
    (reads_taggedType o.returnTag o.returnType)).mul (reads_ident o.name)).mul Reads.mark).mul
    (reads_params o.params)).mul Reads.mark).mul (reads_nameList o.throws)).mul Reads.mark).of
    (fun x => ⟨x.1.1.1.1.1.1.1.1, x.1.1.1.1.1.1.1.2, x.1.1.1.1.1.1.2, x.1.1.1.1.1.2, x.1.1.1.1.2,
      x.1.1.1.2, x.1.1.2, x.1.2, x.2⟩) (fun _ => rfl) ?_
  rintro ⟨⟨⟨⟨⟨⟨⟨⟨ss, idempotent⟩, type⟩, name⟩, left⟩, params⟩, right⟩, throws⟩, semicolon⟩
    ⟨⟨⟨⟨⟨⟨⟨⟨hss, hidempotent⟩, htag, htype⟩, hname⟩, -⟩, hparams⟩, -⟩, hthrows⟩, -⟩
  obtain ⟨ps, hps, hpse⟩ := mapM_builds hparams
  have hrepeat : firstRepeat? [] ps = none :=
    firstRepeat?_eq_none.2 ⟨by rw [map_name_eq hpse]; exact ho.distinct, by simp⟩
  dsimp only at *
  simp only [Builds, Grammar.Operation.build, hps, ok_bind, hrepeat, htag, hss]
  exact ⟨_, rfl, by
    simp [Operation.unlocated, htype, hname, hpse, hidempotent, hthrows]⟩

theorem reads_interface (d : Interface) (hd : d.WellFormed) :
    Reads d.spelling Grammar.Interface.tokens
      (Builds Grammar.Interface.build Interface.unlocated d) := by
  refine (((((reads_modifiers d.metadata d.isLocal).mul Reads.keyword).mul
    (reads_ident d.name)).mul (reads_nameList d.bases)).mul
    (Reads.prod d.operations fun o ho => reads_operation o (hd.operations o ho)).body).of
    (fun x => ⟨x.1.1.1.1, x.1.1.1.2, x.1.1.2, x.1.2, x.2⟩) (fun _ => rfl) ?_
  rintro ⟨⟨⟨⟨mods, keyword⟩, name⟩, bases⟩, body⟩ ⟨⟨⟨⟨⟨hss, hlocal⟩, -⟩, hname⟩, hbases⟩, hbody⟩
  obtain ⟨os, hos, hose⟩ := mapM_builds hbody
  dsimp only at *
  simp only [Builds, Grammar.Interface.build, hos, hss]
  exact ⟨_, rfl, by simp [Interface.unlocated, hname, hbases, hose, hlocal]⟩

theorem reads_base (base : Option Text) :
    Reads (baseSpelling base) (optTokens Base.tokens) fun x =>
      (x.map fun b => b.name.text) = base := by
  cases base with
  | none => exact Reads.none.of id (fun _ => rfl) (by rintro x rfl; rfl)
  | some n =>
    refine (Reads.keyword.mul (reads_scopedName n)).of (fun x => some ⟨x.1, x.2⟩) (fun _ => rfl) ?_
    rintro ⟨keyword, name⟩ ⟨-, hname⟩
    exact congrArg some hname

def ItemBuilds : DataMember ⊕ Operation → ClassItem → Prop
  | .inl m, .member t => Builds Grammar.DataMember.build DataMember.unlocated m t
  | .inr o, .operation t => Builds Grammar.Operation.build Operation.unlocated o t
  | _, _ => False

theorem reads_classItems (d : Class) (hd : d.WellFormed) :
    Reads d.itemsSpelling (fun xs : List ClassItem => xs.flatMap ClassItem.tokens) fun xs =>
      ∃ items : List (DataMember ⊕ Operation),
        items.filterMap Sum.getLeft? = d.members ∧ items.filterMap Sum.getRight? = d.operations ∧
          List.Forall₂ ItemBuilds items xs := by
  rintro ts ⟨items, hmembers, hoperations, hts⟩
  have h := Reads.prod (f := ClassItem.tokens) (p := ItemBuilds) items (fun item hitem => ?_) ts hts
  · obtain ⟨xs, hxs, hbuilds⟩ := h
    exact ⟨xs, hxs, items, hmembers, hoperations, hbuilds⟩
  · cases item with
    | inl m => exact (reads_dataMember m).of .member (fun _ => rfl) fun _ hx => hx
    | inr o =>
      have ho : o ∈ d.operations := hoperations ▸ List.mem_filterMap.2 ⟨_, hitem, rfl⟩
      exact (reads_operation o (hd.operations o ho)).of .operation (fun _ => rfl) fun _ hx => hx

theorem forall₂_classItems {items : List (DataMember ⊕ Operation)} {xs : List ClassItem}
    (h : List.Forall₂ ItemBuilds items xs) :
    List.Forall₂ (Builds Grammar.DataMember.build DataMember.unlocated)
        (items.filterMap Sum.getLeft?) (xs.filterMap ClassItem.member?) ∧
      List.Forall₂ (Builds Grammar.Operation.build Operation.unlocated)
        (items.filterMap Sum.getRight?) (xs.filterMap ClassItem.operation?) := by
  induction h with
  | nil => exact ⟨.nil, .nil⟩
  | @cons item x items xs hx _ ih =>
    cases item <;> cases x
    · exact ⟨.cons hx ih.1, ih.2⟩
    · exact hx.elim
    · exact hx.elim
    · exact ⟨ih.1, .cons hx ih.2⟩

theorem reads_class (d : Class) (hd : d.WellFormed) :
    Reads d.spelling Grammar.Class.tokens (Builds Grammar.Class.build Class.unlocated d) := by
  refine (((((((reads_modifiers d.metadata d.isLocal).mul Reads.keyword).mul
    (reads_ident d.name)).mul (Reads.elim d.compactId fun n _ => reads_parenInt n)).mul
    (reads_base d.base)).mul (reads_nameList d.implements)).mul (reads_classItems d hd).body).of
    (fun x => ⟨x.1.1.1.1.1.1, x.1.1.1.1.1.2, x.1.1.1.1.2, x.1.1.1.2, x.1.1.2, x.1.2, x.2⟩)
    (fun _ => rfl) ?_
  rintro ⟨⟨⟨⟨⟨⟨mods, keyword⟩, name⟩, compactId⟩, base⟩, implements⟩, body⟩
    ⟨⟨⟨⟨⟨⟨⟨hss, hlocal⟩, -⟩, hname⟩, hid⟩, hbase⟩, himplements⟩, items, hm, ho, hbody⟩
  have hcompactId := optionMapM_eq_ok hid
  obtain ⟨hmembers, hoperations⟩ := forall₂_classItems hbody
  obtain ⟨ms, hms, hmse⟩ := mapM_builds hmembers
  obtain ⟨os, hos, hose⟩ := mapM_builds hoperations
  rw [hm] at hmse
  rw [ho] at hose
  dsimp only at *
  simp only [Builds, Grammar.Class.build, hcompactId, hms, hos, hss]
  exact ⟨_, rfl, by simp [Class.unlocated, hname, hbase, himplements, hmse, hose, hlocal]⟩

theorem reads_exception (d : Exception) :
    Reads d.spelling Grammar.Exception.tokens
      (Builds Grammar.Exception.build Exception.unlocated d) := by
  refine (((((reads_modifiers d.metadata d.isLocal).mul Reads.keyword).mul
    (reads_ident d.name)).mul (reads_base d.base)).mul
    (Reads.prod d.members fun m _ => reads_dataMember m).body).of
    (fun x => ⟨x.1.1.1.1, x.1.1.1.2, x.1.1.2, x.1.2, x.2⟩) (fun _ => rfl) ?_
  rintro ⟨⟨⟨⟨mods, keyword⟩, name⟩, base⟩, body⟩ ⟨⟨⟨⟨⟨hss, hlocal⟩, -⟩, hname⟩, hbase⟩, hbody⟩
  obtain ⟨ms, hms, hmse⟩ := mapM_builds hbody
  dsimp only at *
  simp only [Builds, Grammar.Exception.build, hms, hss]
  exact ⟨_, rfl, by simp [Exception.unlocated, hname, hbase, hmse, hlocal]⟩

theorem isEmpty_eq_false {α β : Type} {e : α → β} {xs ys : List α} (h : xs.map e = ys.map e)
    (hne : ys ≠ []) : xs.isEmpty = false := by
  have hlen := congrArg List.length h
  simp only [List.length_map] at hlen
  cases xs with
  | nil => exact absurd (List.eq_nil_of_length_eq_zero hlen.symm) hne
  | cons x xs => rfl

theorem reads_struct (d : Struct) (hd : d.WellFormed) :
    Reads d.spelling Grammar.Struct.tokens (Builds Grammar.Struct.build Struct.unlocated d) := by
  refine ((((reads_modifiers d.metadata d.isLocal).mul Reads.keyword).mul
    (reads_ident d.name)).mul (Reads.prod d.members fun m _ => reads_dataMember m).body).of
    (fun x => ⟨x.1.1.1, x.1.1.2, x.1.2, x.2⟩) (fun _ => rfl) ?_
  rintro ⟨⟨⟨mods, keyword⟩, name⟩, body⟩ ⟨⟨⟨⟨hss, hlocal⟩, -⟩, hname⟩, hbody⟩
  obtain ⟨ms, hms, hmse⟩ := mapM_builds hbody
  have hne := isEmpty_eq_false hmse hd.nonempty
  dsimp only at *
  simp only [Builds, Grammar.Struct.build, hms, ok_bind, hne, hss]
  exact ⟨_, rfl, by simp [Struct.unlocated, hname, hmse, hlocal]⟩

theorem reads_forward (d : Forward) :
    Reads d.spelling (@Grammar.Forward.tokens d.kind.keyword)
      (Builds (Grammar.Forward.build d.kind) Forward.unlocated d) := by
  refine ((((reads_modifiers d.metadata d.isLocal).mul Reads.keyword).mul
    (reads_ident d.name)).mul Reads.mark).of
    (fun x => ⟨x.1.1.1, x.1.1.2, x.1.2, x.2⟩) (fun _ => rfl) ?_
  rintro ⟨⟨⟨mods, keyword⟩, name⟩, semicolon⟩ ⟨⟨⟨⟨hss, hlocal⟩, -⟩, hname⟩, -⟩
  dsimp only at *
  simp only [Builds, Grammar.Forward.build, hss]
  exact ⟨_, rfl, by simp [Forward.unlocated, hname, hlocal]⟩

theorem reads_enumerator (e : Enumerator) :
    Reads e.spelling Grammar.Enumerator.tokens
      (Builds Grammar.Enumerator.build Enumerator.unlocated e) := by
  have hvalue : ∀ n : Int, Reads (Spelling.mark .equal * Spelling.int n) EnumValue.tokens
      fun x => intValue x.value = .ok n := fun n =>
    (Reads.mark.mul (reads_int n)).of (fun x => ⟨x.1, x.2⟩) (fun _ => rfl) fun _ hx => hx.2
  refine ((reads_ident e.name).mul (Reads.elim e.value fun n _ => hvalue n)).of
    (fun x => ⟨x.1, x.2⟩) (fun _ => rfl) ?_
  rintro ⟨name, value⟩ ⟨hname, hv⟩
  have hvalue := optionMapM_eq_ok hv
  dsimp only at *
  simp only [Builds, Grammar.Enumerator.build, hvalue]
  exact ⟨_, rfl, by simp [Enumerator.unlocated, hname]⟩

theorem reads_enumerators (es : List Enumerator) (hne : es ≠ []) :
    Reads (Spelling.listed (es.map Enumerator.spelling) * (1 + Spelling.mark .comma))
      (optTokens EnumeratorList.tokens) fun x =>
        List.Forall₂ (Builds Grammar.Enumerator.build Enumerator.unlocated) es
          ((x.map EnumeratorList.toList).getD []) := by
  obtain ⟨e, es, rfl⟩ := List.exists_cons_of_ne_nil hne
  exact ((Reads.listed e es fun e' _ => reads_enumerator e').mul Reads.mark.maybe).of
    (fun x => some ⟨x.1.1, x.1.2, x.2⟩) (fun _ => rfl) fun _ hx => hx.1

theorem reads_enum (d : Enum) (hd : d.WellFormed) :
    Reads d.spelling Grammar.Enum.tokens (Builds Grammar.Enum.build Enum.unlocated d) := by
  refine ((((reads_modifiers d.metadata d.isLocal).mul Reads.keyword).mul
    (reads_ident d.name)).mul (((Reads.mark.mul (reads_enumerators d.enumerators hd.nonempty)).mul
    Reads.mark).mul Reads.mark.maybe)).of
    (fun x => ⟨x.1.1.1, x.1.1.2, x.1.2, x.2.1.1.1, x.2.1.1.2, x.2.1.2, x.2.2⟩)
    (fun x => by simp [Grammar.Enum.tokens]) ?_
  rintro ⟨⟨⟨mods, keyword⟩, name⟩, ⟨⟨left, enumerators⟩, right⟩, semicolon⟩
    ⟨⟨⟨⟨hss, hlocal⟩, -⟩, hname⟩, ⟨⟨-, henumerators⟩, -⟩, -⟩
  obtain ⟨es, hes, hese⟩ := mapM_builds henumerators
  have hne := isEmpty_eq_false hese hd.nonempty
  dsimp only at *
  simp only [Builds, Grammar.Enum.build, hes, ok_bind, hne, hss]
  exact ⟨_, rfl, by simp [Enum.unlocated, hname, hese, hlocal]⟩

theorem reads_sequence (d : Sequence) :
    Reads d.spelling Grammar.Sequence.tokens
      (Builds Grammar.Sequence.build Sequence.unlocated d) := by
  refine (((((((reads_modifiers d.metadata d.isLocal).mul Reads.keyword).mul Reads.mark).mul
    (reads_annotatedType d.elementMetadata d.elementType)).mul Reads.mark).mul
    (reads_ident d.name)).mul Reads.mark).of
    (fun x => ⟨x.1.1.1.1.1.1, x.1.1.1.1.1.2, x.1.1.1.1.2, x.1.1.1.2, x.1.1.2, x.1.2, x.2⟩)
    (fun _ => rfl) ?_
  rintro ⟨⟨⟨⟨⟨⟨mods, keyword⟩, left⟩, element⟩, right⟩, name⟩, semicolon⟩
    ⟨⟨⟨⟨⟨⟨⟨hss, hlocal⟩, -⟩, -⟩, hess, htype⟩, -⟩, hname⟩, -⟩
  dsimp only at *
  simp only [Builds, Grammar.Sequence.build, hess, hss]
  exact ⟨_, rfl, by simp [Sequence.unlocated, hname, htype, hlocal]⟩

theorem reads_dictionary (d : Dictionary) :
    Reads d.spelling Grammar.Dictionary.tokens
      (Builds Grammar.Dictionary.build Dictionary.unlocated d) := by
  refine (((((((((reads_modifiers d.metadata d.isLocal).mul Reads.keyword).mul Reads.mark).mul
    (reads_annotatedType d.keyMetadata d.keyType)).mul Reads.mark).mul
    (reads_annotatedType d.valueMetadata d.valueType)).mul Reads.mark).mul
    (reads_ident d.name)).mul Reads.mark).of
    (fun x => ⟨x.1.1.1.1.1.1.1.1, x.1.1.1.1.1.1.1.2, x.1.1.1.1.1.1.2, x.1.1.1.1.1.2, x.1.1.1.1.2,
      x.1.1.1.2, x.1.1.2, x.1.2, x.2⟩) (fun _ => rfl) ?_
  rintro ⟨⟨⟨⟨⟨⟨⟨⟨mods, keyword⟩, left⟩, key⟩, comma⟩, value⟩, right⟩, name⟩, semicolon⟩
    ⟨⟨⟨⟨⟨⟨⟨⟨⟨hss, hlocal⟩, -⟩, -⟩, hkss, hkey⟩, -⟩, hvss, hvalue⟩, -⟩, hname⟩, -⟩
  dsimp only at *
  simp only [Builds, Grammar.Dictionary.build, hkss, hvss, hss]
  exact ⟨_, rfl, by simp [Dictionary.unlocated, hname, hkey, hvalue, hlocal]⟩

theorem reads_const (d : Const) :
    Reads d.spelling Grammar.Const.tokens (Builds Grammar.Const.build Const.unlocated d) := by
  refine ((((((reads_bracketed d.metadata).mul Reads.keyword).mul
    (reads_annotatedType d.typeMetadata d.type)).mul (reads_ident d.name)).mul
    (reads_initial d.value)).mul Reads.mark).of
    (fun x => ⟨x.1.1.1.1.1, x.1.1.1.1.2, x.1.1.1.2, x.1.1.2, x.1.2, x.2⟩) (fun _ => rfl) ?_
  rintro ⟨⟨⟨⟨⟨ss, keyword⟩, type⟩, name⟩, initial⟩, semicolon⟩
    ⟨⟨⟨⟨⟨hss, -⟩, htss, htype⟩, hname⟩, hvalue⟩, -⟩
  dsimp only at *
  simp only [Builds, Grammar.Const.build, hvalue, htss, hss]
  exact ⟨_, rfl, by simp [Const.unlocated, hname, htype]⟩

theorem Builds.definition {α δ : Type} {build : α → Build δ} {erase : δ → δ} {d : δ} {x : α}
    (h : Builds build erase d x) (wrap : δ → Definition) {make : α → Grammar.Definition}
    (hbuild : (make x).build = wrap <$> build x)
    (herase : ∀ d, (wrap d).unlocated = wrap (erase d)) :
    Builds Grammar.Definition.build Definition.unlocated (wrap d) (make x) := by
  obtain ⟨d', hd, he⟩ := h
  exact ⟨wrap d', by rw [hbuild, hd]; rfl, by rw [herase, herase, he]⟩

theorem reads_moduleOf {definitions : List Definition} (name : Text) (loc : Position)
    (ss : List Literal)
    (h : Reads (definitionsSpelling definitions) definitionsTokens
      (Builds buildDefinitions unlocatedDefinitions definitions)) :
    Reads (Module.mk name loc definitions ss).spelling Grammar.Module.tokens
      (Builds Grammar.Module.build Module.unlocated (.mk name loc definitions ss)) := by
  rw [Module.spelling]
  refine ((((reads_bracketed ss).mul Reads.keyword).mul (reads_scopedName name)).mul
    (((Reads.mark.mul h).mul Reads.mark).mul Reads.mark.maybe)).of
    (fun x => .mk x.1.1.1 x.1.1.2 x.1.2 x.2.1.1.1 x.2.1.1.2 x.2.1.2 x.2.2)
    (fun x => by simp [Grammar.Module.tokens]) ?_
  rintro ⟨⟨⟨ss', keyword⟩, name'⟩, ⟨⟨left, definitions'⟩, right⟩, semicolon⟩
    ⟨⟨⟨hss, -⟩, hname⟩, ⟨⟨-, ds, hds, hdse⟩, -⟩, -⟩
  dsimp only at *
  rw [Builds, Grammar.Module.build, hss, hds]
  exact ⟨_, rfl, by rw [Module.unlocated, Module.unlocated, hname, hdse]⟩

mutual

theorem reads_module : (d : Module) → d.WellFormed →
    Reads d.spelling Grammar.Module.tokens (Builds Grammar.Module.build Module.unlocated d)
  | .mk name loc definitions ss, hd => by
    rw [Module.WellFormed] at hd
    exact reads_moduleOf name loc ss (reads_definitions definitions hd.2)

theorem reads_definition : (d : Definition) → d.WellFormed →
    Reads d.spelling Grammar.Definition.tokens
      (Builds Grammar.Definition.build Definition.unlocated d)
  | .module d, hd =>
    (reads_module d hd).of .module (fun _ => rfl) fun _ hx => hx.definition .module rfl fun _ => rfl
  | .interface d, hd =>
    (reads_interface d hd).of .interface (fun _ => rfl)
      fun _ hx => hx.definition .interface rfl fun _ => rfl
  | .class d, hd =>
    (reads_class d hd).of .class (fun _ => rfl) fun _ hx => hx.definition .class rfl fun _ => rfl
  | .forward ⟨.ofInterface, name, loc, isLocal, ss⟩, _ =>
    (reads_forward ⟨.ofInterface, name, loc, isLocal, ss⟩).of .interfaceForward (fun _ => rfl)
      fun _ hx => hx.definition .forward rfl fun _ => rfl
  | .forward ⟨.ofClass, name, loc, isLocal, ss⟩, _ =>
    (reads_forward ⟨.ofClass, name, loc, isLocal, ss⟩).of .classForward (fun _ => rfl)
      fun _ hx => hx.definition .forward rfl fun _ => rfl
  | .exception d, _ =>
    (reads_exception d).of .exception (fun _ => rfl)
      fun _ hx => hx.definition .exception rfl fun _ => rfl
  | .struct d, hd =>
    (reads_struct d hd).of .struct (fun _ => rfl) fun _ hx => hx.definition .struct rfl fun _ => rfl
  | .enum d, hd =>
    (reads_enum d hd).of .enum (fun _ => rfl) fun _ hx => hx.definition .enum rfl fun _ => rfl
  | .sequence d, _ =>
    (reads_sequence d).of .sequence (fun _ => rfl)
      fun _ hx => hx.definition .sequence rfl fun _ => rfl
  | .dictionary d, _ =>
    (reads_dictionary d).of .dictionary (fun _ => rfl)
      fun _ hx => hx.definition .dictionary rfl fun _ => rfl
  | .const d, _ =>
    (reads_const d).of .const (fun _ => rfl) fun _ hx => hx.definition .const rfl fun _ => rfl

theorem reads_definitions : (ds : List Definition) → DefinitionsWellFormed ds →
    Reads (definitionsSpelling ds) definitionsTokens
      (Builds buildDefinitions unlocatedDefinitions ds)
  | [], _ => by
    rw [definitionsSpelling]
    intro ts hts
    rw [Language.mem_one, List.map_eq_nil_iff] at hts
    exact ⟨[], hts.symm, [], rfl, rfl⟩
  | d :: ds, hd => by
    rw [definitionsSpelling]
    rw [DefinitionsWellFormed] at hd
    refine ((reads_definition d hd.1).mul (reads_definitions ds hd.2)).of (fun x => x.1 :: x.2)
      (fun _ => rfl) ?_
    rintro ⟨x, xs⟩ ⟨⟨d', hd, hde⟩, ds', hds, hdse⟩
    dsimp only at *
    rw [Builds, buildDefinitions, hd, hds]
    exact ⟨_, rfl, by rw [unlocatedDefinitions, unlocatedDefinitions, hde, hdse]⟩

end

end SliceIdl
