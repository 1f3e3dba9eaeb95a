import SliceIdl.Proofs.Document.Rendering
import SliceIdl.Proofs.Json.Determinacy

/-!
# What is rendered determines the document

Every kind of node keeps all of its fields in JSON, what is absent told from what is there, and a
definition its kind. So documents that are rendered alike are the same, unless a literal of one of
them has a high surrogate directly before a low one: those are rendered as the code point that the
two stand for.
-/

set_option autoImplicit false

namespace SliceIdl

theorem Text.codePoints_injective : Function.Injective Text.codePoints :=
  List.map_injective_iff.2 fun _ _ h => CodePoint.ofChar_injective h

namespace Json

variable {α : Type}

@[simp]
theorem text_inj {t u : Text} : text t = text u ↔ t = u := by
  rw [text, text, str.injEq, Text.codePoints_injective.eq_iff]

@[simp]
theorem ofString_inj {s t : String} : ofString s = ofString t ↔ s = t := by
  rw [ofString, ofString, text_inj, String.toList_inj]

@[simp]
theorem texts_inj {ts us : List Text} : texts ts = texts us ↔ ts = us := by
  simp [texts, List.map_inj_right]

@[simp]
theorem literals_inj {ss ts : List Literal} : literals ss = literals ts ↔ ss = ts := by
  simp [literals, List.map_inj_right]

theorem ofOption_inj {f : α → Json} (hf : ∀ a b, f a = f b → a = b) (hnull : ∀ a, f a ≠ null)
    {o p : Option α} : ofOption f o = ofOption f p ↔ o = p := by
  cases o with
  | none =>
    cases p with
    | none => exact iff_of_true rfl rfl
    | some b => exact iff_of_false (hnull b).symm nofun
  | some a =>
    cases p with
    | none => exact iff_of_false (hnull a) nofun
    | some b => exact ⟨fun h => congrArg some (hf a b h), fun h => congrArg f (Option.some.inj h)⟩

@[simp]
theorem textOption_inj {o p : Option Text} : ofOption text o = ofOption text p ↔ o = p :=
  ofOption_inj (fun _ _ => text_inj.1) fun _ => nofun

@[simp]
theorem intOption_inj {o p : Option Int} : ofOption int o = ofOption int p ↔ o = p :=
  ofOption_inj (fun _ _ => int.inj) fun _ => nofun

@[simp]
theorem natOption_inj {o p : Option Nat} : natOption o = natOption p ↔ o = p :=
  ofOption_inj (fun _ _ h => Int.ofNat.inj (int.inj h)) fun _ => nofun

@[simp]
theorem object_inj {ms ns : List (String × Json)} : object ms = object ns ↔ ms = ns := by
  have hmember : Function.Injective fun m : String × Json =>
      (Text.codePoints m.1.toList, m.2) := by
    intro m n h
    exact Prod.ext (String.toList_inj.1 (Text.codePoints_injective (Prod.mk.inj h).1))
      (Prod.mk.inj h).2
  rw [object, object, obj.injEq, (List.map_injective_iff.2 hmember).eq_iff]

@[simp]
theorem node_inj {k l : String} {fs gs : List (String × Json)} :
    node k fs = node l gs ↔ k = l ∧ fs = gs := by
  simp [node]

end Json

@[simp]
theorem Position.toJson_inj {p q : Position} : p.toJson = q.toJson ↔ p = q := by
  cases p
  cases q
  simp [toJson]

@[simp]
theorem TypeRef.toJson_inj {t u : TypeRef} : t.toJson = u.toJson ↔ t = u := by
  cases t
  cases u
  simp [toJson]

@[simp]
theorem ConstValue.toJson_inj {v w : ConstValue} : v.toJson = w.toJson ↔ v = w := by
  cases v <;> cases w <;> simp [toJson]

@[simp]
theorem ConstValue.option_inj {o p : Option ConstValue} :
    Json.ofOption toJson o = Json.ofOption toJson p ↔ o = p :=
  Json.ofOption_inj (fun _ _ => toJson_inj.1) fun _ => nofun

@[simp]
theorem DataMember.toJson_inj {m n : DataMember} : m.toJson = n.toJson ↔ m = n := by
  cases m
  cases n
  simp [toJson]

@[simp]
theorem Param.toJson_inj {p q : Param} : p.toJson = q.toJson ↔ p = q := by
  cases p
  cases q
  simp [toJson]

@[simp]
theorem Operation.toJson_inj {o p : Operation} : o.toJson = p.toJson ↔ o = p := by
  cases o
  cases p
  simp [toJson, List.map_inj_right]

@[simp]
theorem Enumerator.toJson_inj {e f : Enumerator} : e.toJson = f.toJson ↔ e = f := by
  cases e
  cases f
  simp [toJson]

@[simp]
theorem ForwardKind.toJson_inj {k l : ForwardKind} : k.toJson = l.toJson ↔ k = l := by
  cases k <;> cases l <;> simp [toJson]

theorem Interface.toJson_inj {d e : Interface} : d.toJson = e.toJson ↔ d = e := by
  cases d
  cases e
  simp [toJson, List.map_inj_right]

theorem Class.toJson_inj {d e : Class} : d.toJson = e.toJson ↔ d = e := by
  cases d
  cases e
  simp [toJson, List.map_inj_right]

theorem Forward.toJson_inj {d e : Forward} : d.toJson = e.toJson ↔ d = e := by
  cases d
  cases e
  simp [toJson]

theorem Exception.toJson_inj {d e : Exception} : d.toJson = e.toJson ↔ d = e := by
  cases d
  cases e
  simp [toJson, List.map_inj_right]

theorem Struct.toJson_inj {d e : Struct} : d.toJson = e.toJson ↔ d = e := by
  cases d
  cases e
  simp [toJson, List.map_inj_right]

theorem Enum.toJson_inj {d e : Enum} : d.toJson = e.toJson ↔ d = e := by
  cases d
  cases e
  simp [toJson, List.map_inj_right]

theorem Sequence.toJson_inj {d e : Sequence} : d.toJson = e.toJson ↔ d = e := by
  cases d
  cases e
  simp [toJson]

theorem Dictionary.toJson_inj {d e : Dictionary} : d.toJson = e.toJson ↔ d = e := by
  cases d
  cases e
  simp [toJson]

theorem Const.toJson_inj {d e : Const} : d.toJson = e.toJson ↔ d = e := by
  cases d
  cases e
  simp [toJson]

def Definition.kind : Definition → String
  | module _ => "module"
  | interface _ => "interface"
  | «class» _ => "class"
  | forward _ => "forward"
  | exception _ => "exception"
  | struct _ => "struct"
  | enum _ => "enum"
  | sequence _ => "sequence"
  | dictionary _ => "dictionary"
  | const _ => "const"

theorem Definition.exists_node (d : Definition) : ∃ fields, d.toJson = Json.node d.kind fields := by
  cases d with
  | module d =>
    obtain ⟨name, loc, definitions, metadata⟩ := d
    exact ⟨_, by rw [toJson, Module.toJson]; rfl⟩
  | _ => exact ⟨_, by rw [toJson]; rfl⟩

theorem Definition.kind_eq {d e : Definition} (h : d.toJson = e.toJson) : d.kind = e.kind := by
  obtain ⟨fields, hd⟩ := d.exists_node
  obtain ⟨fields', he⟩ := e.exists_node
  rw [hd, he, Json.node_inj] at h
  exact h.1

mutual

theorem Module.toJson_injective : (d e : Module) → d.toJson = e.toJson → d = e
  | .mk name loc ds metadata, .mk name' loc' es metadata', h => by
    simp only [Module.toJson, Json.node_inj, List.cons.injEq, Prod.mk.injEq, true_and, and_true,
      Json.text_inj, Position.toJson_inj, Json.literals_inj, Json.arr.injEq] at h
    obtain ⟨rfl, rfl, hdefinitions, rfl⟩ := h
    rw [definitionsJson_injective ds es hdefinitions]

theorem Definition.toJson_injective : (d e : Definition) → d.toJson = e.toJson → d = e
  | .module d, e, h => by
    cases e with
    | module e => exact congrArg _ (Module.toJson_injective d e h)
    | _ => exact absurd (Definition.kind_eq h) (by simp [Definition.kind])
  | .interface d, e, h => by
    cases e with
    | interface e => exact congrArg _ (Interface.toJson_inj.1 h)
    | _ => exact absurd (Definition.kind_eq h) (by simp [Definition.kind])
  | .class d, e, h => by
    cases e with
    | «class» e => exact congrArg _ (Class.toJson_inj.1 h)
    | _ => exact absurd (Definition.kind_eq h) (by simp [Definition.kind])
  | .forward d, e, h => by
    cases e with
    | forward e => exact congrArg _ (Forward.toJson_inj.1 h)
    | _ => exact absurd (Definition.kind_eq h) (by simp [Definition.kind])
  | .exception d, e, h => by
    cases e with
    | exception e => exact congrArg _ (Exception.toJson_inj.1 h)
    | _ => exact absurd (Definition.kind_eq h) (by simp [Definition.kind])
  | .struct d, e, h => by
    cases e with
    | struct e => exact congrArg _ (Struct.toJson_inj.1 h)
    | _ => exact absurd (Definition.kind_eq h) (by simp [Definition.kind])
  | .enum d, e, h => by
    cases e with
    | enum e => exact congrArg _ (Enum.toJson_inj.1 h)
    | _ => exact absurd (Definition.kind_eq h) (by simp [Definition.kind])
  | .sequence d, e, h => by
    cases e with
    | sequence e => exact congrArg _ (Sequence.toJson_inj.1 h)
    | _ => exact absurd (Definition.kind_eq h) (by simp [Definition.kind])
  | .dictionary d, e, h => by
    cases e with
    | dictionary e => exact congrArg _ (Dictionary.toJson_inj.1 h)
    | _ => exact absurd (Definition.kind_eq h) (by simp [Definition.kind])
  | .const d, e, h => by
    cases e with
    | const e => exact congrArg _ (Const.toJson_inj.1 h)
    | _ => exact absurd (Definition.kind_eq h) (by simp [Definition.kind])

theorem definitionsJson_injective : (ds es : List Definition) →
    definitionsJson ds = definitionsJson es → ds = es
  | [], [], _ => rfl
  | [], e :: es, h => by cases h
  | d :: ds, [], h => by cases h
  | d :: ds, e :: es, h => by
    obtain ⟨hd, hds⟩ := List.cons.inj h
    rw [Definition.toJson_injective d e hd, definitionsJson_injective ds es hds]

end

/-- The projection to JSON loses nothing. -/
theorem Document.toJson_inj {d e : Document} : d.toJson = e.toJson ↔ d = e := by
  obtain ⟨pragmaOnce, includes, fileMetadata, modules⟩ := d
  obtain ⟨pragmaOnce', includes', fileMetadata', modules'⟩ := e
  simp [toJson, List.map_inj_right Module.toJson_injective]

/-- Rendered texts are equal if and only if the documents are equal as JSON up to the code units of
strings; where no high surrogate stands directly before a low one, if and only if the documents are
equal. -/
theorem Document.render_determines {d e : Document} {t u : Text} (hd : d.render? = some t)
    (he : e.render? = some u) :
    (t = u ↔ d.toJson.utf16 = e.toJson.utf16) ∧ (d.toJson = e.toJson ↔ d = e) ∧
      ((∀ s ∈ d.toJson.strings, Json.Unsplit s) → (∀ s ∈ e.toJson.strings, Json.Unsplit s) →
        (t = u ↔ d.toJson = e.toJson)) := by
  have hunits : t = u ↔ d.toJson.utf16 = e.toJson.utf16 := by
    rw [render?_eq_some hd, render?_eq_some he, Json.print_eq_iff Json.Style.indented_isLegal]
  refine ⟨hunits, toJson_inj, fun hsd hse => hunits.trans ⟨Json.utf16_injective hsd hse, ?_⟩⟩
  intro h
  rw [h]

namespace Respelled

/-- A letter, a lone surrogate and a number. -/
def source : Text :=
  "[[\"\\u0041\\ud800\"]]\nmodule M \x7b const float x = 1.50; \x7d".toList

def otherSource : Text :=
  "[[\"A\\xD800\"]]\nmodule M \x7b const float x = 15e-1 ; \x7d".toList

theorem rendered : (((Document.parse source).toOption.bind Document.render?).isSome ∧
      (Document.parse otherSource).toOption.bind Document.render? =
        (Document.parse source).toOption.bind Document.render?) ∧
    ∀ d ∈ [(Document.parse source).toOption, (Document.parse otherSource).toOption],
      d.all fun d => ∀ s ∈ d.toJson.strings, Json.Unsplit s := by
  decide +kernel

end Respelled

/-- Sources that are spelled differently have the same document if they are rendered alike. -/
theorem Document.render_determines_respelled : ∃ d e t,
    Document.parse Respelled.source = .ok d ∧ Document.parse Respelled.otherSource = .ok e ∧
      d.render? = some t ∧ e.render? = some t ∧ d = e := by
  obtain ⟨⟨hsome, heq⟩, hunsplit⟩ := Respelled.rendered
  obtain ⟨t, ht⟩ := Option.isSome_iff_exists.1 hsome
  obtain ⟨d, hd, hrd⟩ := exists_rendered ht
  obtain ⟨e, he, hre⟩ := exists_rendered (heq.trans ht)
  rw [hd, he] at hunsplit
  have hsd := of_decide_eq_true (hunsplit _ List.mem_cons_self)
  have hse := of_decide_eq_true (hunsplit _ (List.mem_cons_of_mem _ List.mem_cons_self))
  obtain ⟨-, hsame, htexts⟩ := render_determines hrd hre
  exact ⟨d, e, t, hd, he, hrd, hre, hsame.1 ((htexts hsd hse).1 rfl)⟩

namespace Smiley

/-- One code point named as such and as two surrogates. -/
def source : Text :=
  "[[\"\\U0001F600\"]]".toList

def pairSource : Text :=
  "[[\"\\uD83D\\uDE00\"]]".toList

theorem rendered : (((Document.parse source).toOption.bind Document.render?).isSome ∧
      (Document.parse pairSource).toOption.bind Document.render? =
        (Document.parse source).toOption.bind Document.render?) ∧
    (Document.parse pairSource).toOption.map Document.fileMetadata =
      some [[0xD83D, 0xDE00]] ∧
    (Document.parse source).toOption.map Document.fileMetadata = some [[0x1F600]] := by
  decide +kernel

end Smiley

/-- Different documents can be rendered alike. -/
theorem Document.not_always_determined :
    ¬ ∀ (source source' : Text) (d e : Document) (t : Text), Document.parse source = .ok d →
      Document.parse source' = .ok e → d.render? = some t → e.render? = some t →
        d.toJson = e.toJson := by
  intro h
  obtain ⟨⟨hsome, heq⟩, hpair, hone⟩ := Smiley.rendered
  obtain ⟨t, ht⟩ := Option.isSome_iff_exists.1 hsome
  obtain ⟨d, hd, hrd⟩ := exists_rendered ht
  obtain ⟨e, he, hre⟩ := exists_rendered (heq.trans ht)
  have hsame : d = e := toJson_inj.1 (h _ _ d e t hd he hrd hre)
  rw [hd, hsame] at hone
  rw [he] at hpair
  have hmetadata := hpair.symm.trans hone
  revert hmetadata
  decide

end SliceIdl
