import SliceIdl.Proofs.Document.Building

/-!
# Which files are refused

A file of the grammar has a document unless something is wrong with it: with one of its tokens, or
with a structure, an enumeration, an operation or a tag at any depth.
-/

set_option autoImplicit false

namespace SliceIdl
open Text Lexeme Literal

namespace Grammar

inductive Definition.Holds : Definition → Definition → Prop
  | self (d : Definition) : Holds d d
  | inner {metadata : Option Metadata} {keyword : Tok .kwModule} {name : ScopedName}
      {left : Tok .leftBrace} {ds : List Definition} {right : Tok .rightBrace}
      {semicolon : Option (Tok .semicolon)} {d e : Definition} (hd : d ∈ ds) (h : Holds d e) :
      Holds (.module (.mk metadata keyword name left ds right semicolon)) e

def File.Has (f : File) (d : Definition) : Prop :=
  ∃ m, .module m ∈ f ∧ (Definition.module m).Holds d

/-- What can be wrong with a file of the grammar. -/
inductive File.Flawed (f : File) : Prop
  | token {t : Token} (ht : t ∈ File.tokens f) (h : t.lexeme.Flawed)
  | empty {d : Definition} (hd : f.Has d) (h : d.IsEmpty)
  | repeatedParam {d : Definition} {o : Operation} (hd : f.Has d) (ho : o ∈ d.operations)
      (h : ¬ (o.paramTrees.map fun p => p.name.text).Nodup)
  | negativeTag {d : Definition} {t : OptionalTag} {n : Int} (hd : f.Has d) (ht : t ∈ d.tags)
      (hn : IntText n t.number.value.text) (h : n < 0)

namespace Definition

variable {d e : Definition}

theorem holds_iff_eq (h : ∀ m, d ≠ .module m) : d.Holds e ↔ e = d := by
  constructor
  · intro he
    cases he with
    | self => rfl
    | inner => exact absurd rfl (h _)
  · rintro rfl
    exact .self e

theorem holds_module {metadata : Option Metadata} {keyword : Tok .kwModule} {name : ScopedName}
    {left : Tok .leftBrace} {ds : List Definition} {right : Tok .rightBrace}
    {semicolon : Option (Tok .semicolon)} :
    Holds (.module (.mk metadata keyword name left ds right semicolon)) e ↔
      e = .module (.mk metadata keyword name left ds right semicolon) ∨ ∃ d ∈ ds, d.Holds e := by
  constructor
  · intro he
    cases he with
    | self => exact .inl rfl
    | inner hd h => exact .inr ⟨_, hd, h⟩
  · rintro (rfl | ⟨d, hd, h⟩)
    · exact .self _
    · exact .inner hd h

theorem sane_module (m : Module) : (Definition.module m).Sane := by
  simp [Sane, tags, members, operations, IsEmpty]

end Definition

theorem succeeds_holds_leaf {d : Definition} (h : ∀ m, d ≠ .module m) :
    Succeeds d.build ↔ Meaningful d.tokens ∧ ∀ e, d.Holds e → e.Sane := by
  simp only [succeeds_leaf h, Definition.holds_iff_eq h, forall_eq]

-- The induction is on the nesting of modules, the only definitions that hold others.
mutual

theorem succeeds_module : (m : Module) →
    (Succeeds m.build ↔ Meaningful m.tokens ∧ ∀ e, (Definition.module m).Holds e → e.Sane)
  | .mk metadata keyword name left ds right semicolon => by
    have hbuild : Succeeds (Module.mk metadata keyword name left ds right semicolon).build ↔
        Succeeds (buildMetadata metadata) ∧ Succeeds (buildDefinitions ds) :=
      succeeds_seq fun _ _ => succeeds_bind_pure _
    have htokens : Meaningful (Module.mk metadata keyword name left ds right semicolon).tokens ↔
        Succeeds (buildMetadata metadata) ∧ Meaningful (definitionsTokens ds) := by
      simp [Module.tokens]
    have hsane : (∀ e, (Definition.module
        (.mk metadata keyword name left ds right semicolon)).Holds e → e.Sane) ↔
          ∀ d ∈ ds, ∀ e, d.Holds e → e.Sane := by
      simp only [Definition.holds_module, or_imp, forall_and, forall_eq, Definition.sane_module,
        true_and, forall_exists_index, and_imp]
      exact ⟨fun h d hd e he => h e d hd he, fun h e d hd he => h d hd e he⟩
    rw [hbuild, htokens, hsane, succeeds_definitions ds, and_assoc]

theorem succeeds_definition : (d : Definition) →
    (Succeeds d.build ↔ Meaningful d.tokens ∧ ∀ e, d.Holds e → e.Sane)
  | .module m => by
    rw [Definition.build, succeeds_map, succeeds_module m, Definition.tokens]
  | .interface _ => succeeds_holds_leaf nofun
  | .interfaceForward _ => succeeds_holds_leaf nofun
  | .class _ => succeeds_holds_leaf nofun
  | .classForward _ => succeeds_holds_leaf nofun
  | .exception _ => succeeds_holds_leaf nofun
  | .struct _ => succeeds_holds_leaf nofun
  | .enum _ => succeeds_holds_leaf nofun
  | .sequence _ => succeeds_holds_leaf nofun
  | .dictionary _ => succeeds_holds_leaf nofun
  | .const _ => succeeds_holds_leaf nofun

theorem succeeds_definitions : (ds : List Definition) →
    (Succeeds (buildDefinitions ds) ↔
      Meaningful (definitionsTokens ds) ∧ ∀ d ∈ ds, ∀ e, d.Holds e → e.Sane)
  | [] => by simp [buildDefinitions, definitionsTokens]
  | d :: ds => by
    have hbuild : Succeeds (buildDefinitions (d :: ds)) ↔
        Succeeds d.build ∧ Succeeds (buildDefinitions ds) :=
      succeeds_seq fun _ _ => succeeds_bind_pure _
    rw [hbuild, succeeds_definition d, succeeds_definitions ds, definitionsTokens,
      meaningful_append, List.forall_mem_cons]
    tauto

end

theorem succeeds_topItem (i : TopItem) : Succeeds i.build ↔ Meaningful i.tokens ∧
    ∀ m, i = .module m → ∀ e, (Definition.module m).Holds e → e.Sane := by
  cases i with
  | pragmaOnce t => simp [TopItem.build, TopItem.tokens]
  | includeFile t => simp [TopItem.build, TopItem.tokens, meaningful_includeFile]
  | metadata m => simp [TopItem.build, TopItem.tokens, FileMetadata.tokens]
  | module m => simp [TopItem.build, TopItem.tokens, succeeds_module]

theorem succeeds_file (f : File) :
    Succeeds f.build ↔ Meaningful (File.tokens f) ∧ ∀ d, f.Has d → d.Sane := by
  have hsane : (∀ d, f.Has d → d.Sane) ↔ ∀ i ∈ f, ∀ m, i = .module m →
      ∀ e, (Definition.module m).Holds e → e.Sane := by
    constructor
    · rintro h i hi m rfl e he
      exact h e ⟨m, hi, he⟩
    · rintro h d ⟨m, hm, hd⟩
      exact h _ hm m rfl d hd
  rw [File.build, succeeds_map, succeeds_mapM, hsane, File.tokens, meaningful_flatMap]
  simp only [succeeds_topItem, forall_and]

theorem MemberType.tag_subset {t : MemberType} {tag : OptionalTag} (h : tag ∈ t.tag) :
    tag.tokens ⊆ t.tokens := by
  obtain ⟨_, type⟩ := t
  cases h
  exact List.subset_append_left ..

theorem Body.subset {α : Type} {f : α → List Token} {b : Body α} {x : α} (h : x ∈ b.items) :
    f x ⊆ b.tokens f := by
  intro t ht
  have hitems : t ∈ b.items.flatMap f := List.mem_flatMap.2 ⟨x, h, ht⟩
  simp [tokens, hitems]

theorem Operation.param_subset {o : Operation} {p : Param} (h : p ∈ o.paramTrees) :
    p.tokens ⊆ o.tokens := by
  have hlist : p.tokens ⊆ optTokens ParamList.tokens o.params := by
    rw [paramTrees] at h
    cases hparams : o.params with
    | none => simp [hparams] at h
    | some ps =>
      intro t ht
      rw [hparams, Option.map_some, Option.getD_some, ParamList.toList, List.mem_cons] at h
      rw [optTokens, ParamList.tokens, Parser.tailTokens_eq_flatMap, List.mem_append]
      rcases h with rfl | h
      · exact .inl ht
      · obtain ⟨part, hpart, rfl⟩ := List.mem_map.1 h
        exact .inr (List.mem_flatMap.2 ⟨part, hpart, List.mem_append_right _ ht⟩)
  intro t ht
  simp [Operation.tokens, hlist ht]

theorem Operation.tag_subset {o : Operation} {tag : OptionalTag} (h : tag ∈ o.tags) :
    tag.tokens ⊆ o.tokens := by
  rw [tags, List.mem_append, Option.mem_toList, List.mem_filterMap] at h
  intro t ht
  rcases h with h | ⟨p, hp, h⟩
  · simp [Operation.tokens, MemberType.tag_subset h ht]
  · have hparam : t ∈ p.tokens := by simp [Param.tokens, MemberType.tag_subset h ht]
    exact param_subset hp hparam

namespace Definition

variable {d e : Definition}

theorem member_subset {m : DataMember} (h : m ∈ d.members) : m.tokens ⊆ d.tokens := by
  intro t ht
  cases d with
  | «class» d =>
    obtain ⟨item, hitem, hm⟩ := List.mem_filterMap.1 h
    cases item with
    | member m' =>
      cases hm
      simp [tokens, Class.tokens, Body.subset (f := ClassItem.tokens) hitem ht]
    | operation o => cases hm
  | exception d => simp [tokens, Exception.tokens, Body.subset h ht]
  | struct d => simp [tokens, Struct.tokens, Body.subset h ht]
  | _ => cases h

theorem operation_subset {o : Operation} (h : o ∈ d.operations) : o.tokens ⊆ d.tokens := by
  intro t ht
  cases d with
  | interface d => simp [tokens, Interface.tokens, Body.subset h ht]
  | «class» d =>
    obtain ⟨item, hitem, ho⟩ := List.mem_filterMap.1 h
    cases item with
    | member m => cases ho
    | operation o' =>
      cases ho
      simp [tokens, Class.tokens, Body.subset (f := ClassItem.tokens) hitem ht]
  | _ => cases h

theorem tag_subset {tag : OptionalTag} (h : tag ∈ d.tags) : tag.tokens ⊆ d.tokens := by
  rw [tags, List.mem_append, List.mem_filterMap, List.mem_flatMap] at h
  intro t ht
  rcases h with ⟨m, hm, h⟩ | ⟨o, ho, h⟩
  · have hmember : t ∈ m.tokens := by simp [DataMember.tokens, MemberType.tag_subset h ht]
    exact member_subset hm hmember
  · exact operation_subset ho (Operation.tag_subset h ht)

theorem Holds.subset (h : d.Holds e) : e.tokens ⊆ d.tokens := by
  induction h with
  | self d => exact List.Subset.refl _
  | @inner metadata keyword name left ds right semicolon d e hd h ih =>
    intro t ht
    have hinner : t ∈ definitionsTokens ds := by
      rw [definitionsTokens_eq_flatMap]
      exact List.mem_flatMap.2 ⟨d, hd, ih ht⟩
    simp [Definition.tokens, Module.tokens, hinner]

end Definition

theorem File.Has.subset {f : File} {d : Definition} (h : f.Has d) :
    d.tokens ⊆ File.tokens f := by
  obtain ⟨m, hm, hd⟩ := h
  intro t ht
  exact List.mem_flatMap.2 ⟨.module m, hm, hd.subset ht⟩

theorem File.flawed_iff {f : File} (hfit : ∀ t ∈ File.tokens f, t.IsFit) :
    f.Flawed ↔ ¬ Succeeds f.build := by
  rw [succeeds_file]
  constructor
  · rintro hf ⟨htokens, hsane⟩
    cases hf with
    | token ht h => exact Token.not_hasValue_of_flawed h (htokens _ ht)
    | empty hd h => exact (hsane _ hd).2.2 h
    | repeatedParam hd ho h => exact h ((hsane _ hd).2.1 _ ho)
    | negativeTag hd ht hn h => exact Int.not_le.2 h ((hsane _ hd).1 _ ht _ hn.int_eq)
  · intro hbuild
    by_contra hf
    refine hbuild ⟨fun t ht => ?token, fun d hd => ⟨fun tag htag n hn => ?tag, fun o ho => ?params,
      fun hempty => hf (.empty hd hempty)⟩⟩
    case token =>
      by_contra hvalue
      exact hf (.token ht ((hfit t ht).flawed hvalue))
    case tag =>
      by_contra hnegative
      have hmem : tag.number.value.token ∈ tag.tokens := by
        simp [OptionalTag.tokens, ParenInt.tokens, Tok.tokens]
      have hint : Lexeme.Fits ⟨.int, tag.number.value.text⟩ :=
        hfit _ (hd.subset (Definition.tag_subset htag hmem)) (by simp [Tok.token])
      exact hf (.negativeTag hd htag (hint.int_eq_ok.1 hn) (Int.not_le.1 hnegative))
    case params =>
      by_contra hrepeated
      exact hf (.repeatedParam hd ho hrepeated)

end Grammar

/-- A text whose tokens are those of a file has no document exactly if something is wrong with
the file. -/
theorem Document.parse_error_iff {source : Text} {f : Grammar.File}
    (hstop : (Scan.ofText source).stop = none)
    (htokens : Grammar.File.tokens f = (Scan.ofText source).tokens) :
    (∃ e, Document.parse source = .error e) ↔ f.Flawed := by
  have hfit : ∀ t ∈ Grammar.File.tokens f, t.IsFit := by
    rw [htokens]
    exact fun t ht => Scan.isFit ht
  have hparse (d : Document) : Document.parse source = .ok d ↔ f.build = .ok d := by
    rw [parse_eq_ok, parseFile_eq_ok.2 ⟨hstop, htokens⟩]
    simp
  rw [Grammar.File.flawed_iff hfit, Grammar.Succeeds]
  simp only [← hparse]
  cases Document.parse source <;> simp

def badEscapeSource : Text :=
  "[\"\\x\"] module M { };".toList

theorem Document.parse_error_badEscape : ∃ f : Grammar.File,
    Grammar.File.tokens f = (Scan.ofText badEscapeSource).tokens ∧ f.Flawed := by
  have herror : (Document.parse badEscapeSource).toOption.isNone ∧
      (parseFile badEscapeSource).toOption.isSome := by
    decide +kernel
  cases hf : parseFile badEscapeSource with
  | error e =>
    rw [hf] at herror
    cases herror.2
  | ok f =>
    obtain ⟨hstop, htokens⟩ := parseFile_eq_ok.1 hf
    refine ⟨f, htokens, (parse_error_iff hstop htokens).1 ?_⟩
    cases hd : Document.parse badEscapeSource with
    | error e => exact ⟨e, rfl⟩
    | ok d =>
      rw [hd] at herror
      cases herror.1

end SliceIdl
