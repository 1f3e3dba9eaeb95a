import SliceIdl.Proofs.Document.Floats

/-!
# Declarations and the tokens they are written as

A declaration is located at the first of the tokens that it was built from, and these include all
that stand in front of its own keyword or name. What it holds was built from tokens further behind,
each list of declarations one after the other.
-/

set_option autoImplicit false

namespace SliceIdl

def StartsAt (loc : Position) (ts : List Token) : Prop :=
  ts.head?.map Token.pos = some loc

section
variable {loc : Position} {ts us : List Token}

theorem StartsAt.ne_nil (h : StartsAt loc ts) : ts ≠ [] := by
  rintro rfl
  cases h

theorem StartsAt.append (h : StartsAt loc ts) (us : List Token) : StartsAt loc (ts ++ us) := by
  cases ts with
  | nil => cases h
  | cons t ts => exact h

theorem StartsAt.tail_append (h : StartsAt loc ts) (us : List Token) :
    (ts ++ us).tail = ts.tail ++ us :=
  List.tail_append_of_ne_nil h.ne_nil

end

namespace Grammar

variable {kind : TokenKind} {loc : Position} {ts : List Token}

theorem Tok.startsAt (t : Tok kind) : StartsAt t.pos t.tokens := rfl

theorem startsAt_optTok (h : StartsAt loc ts) (t : Option (Tok kind)) :
    StartsAt ((t.map Tok.pos).getD loc) (optTokens Tok.tokens t ++ ts) := by
  cases t with
  | none => exact h
  | some t => exact t.startsAt.append ts

theorem startsAt_metadata (h : StartsAt loc ts) (m : Option Metadata) :
    StartsAt (locAfter m loc) (optTokens Metadata.tokens m ++ ts) := by
  cases m with
  | none => exact h
  | some m => exact ((m.left.startsAt.append _).append _).append ts

theorem Modifiers.startsAt (h : StartsAt loc ts) (m : Modifiers) :
    StartsAt (m.locOr loc) (m.tokens ++ ts) := by
  rw [tokens, List.append_assoc]
  exact startsAt_metadata (startsAt_optTok h m.isLocal) m.metadata

theorem ScopedName.startsAt (n : ScopedName) : StartsAt n.loc n.tokens :=
  (startsAt_optTok n.first.startsAt n.lead).append _

theorem MemberType.startsAt (t : MemberType) : StartsAt t.loc t.tokens := by
  rw [loc, tokens]
  cases t.tag with
  | none => exact (t.type.name.startsAt.append _).append _
  | some tag => exact (tag.keyword.startsAt.append _).append _

end Grammar

inductive Node where
  | module (d : Module)
  | interface (d : Interface)
  | class (d : Class)
  | forward (d : Forward)
  | exception (d : Exception)
  | struct (d : Struct)
  | enum (d : Enum)
  | sequence (d : Sequence)
  | dictionary (d : Dictionary)
  | const (d : Const)
  | member (m : DataMember)
  | operation (o : Operation)
  | param (p : Param)
  | enumerator (e : Enumerator)

namespace Node

def ofDefinition : Definition → Node
  | .module d => module d
  | .interface d => interface d
  | .class d => .class d
  | .forward d => forward d
  | .exception d => exception d
  | .struct d => .struct d
  | .enum d => enum d
  | .sequence d => sequence d
  | .dictionary d => dictionary d
  | .const d => const d

def loc : Node → Position
  | module d => d.loc
  | interface d => d.loc
  | .class d => d.loc
  | forward d => d.loc
  | exception d => d.loc
  | .struct d => d.loc
  | enum d => d.loc
  | sequence d => d.loc
  | dictionary d => d.loc
  | const d => d.loc
  | member m => m.loc
  | operation o => o.loc
  | param p => p.loc
  | enumerator e => e.loc

def lists : Node → List (List Node)
  | module d => [d.definitions.map ofDefinition]
  | interface d => [d.operations.map operation]
  | .class d => [d.members.map member, d.operations.map operation]
  | exception d => [d.members.map member]
  | .struct d => [d.members.map member]
  | enum d => [d.enumerators.map enumerator]
  | operation o => [o.params.map param]
  | forward _ | sequence _ | dictionary _ | const _ | member _ | param _ | enumerator _ => []

/-- The declaration is what is built of a tree that is spelled by the tokens. -/
inductive WrittenAs : Node → List Token → Prop
  | module {g : Grammar.Module} {d : Module} (h : g.build = .ok d) : WrittenAs (module d) g.tokens
  | interface {g : Grammar.Interface} {d : Interface} (h : g.build = .ok d) :
      WrittenAs (interface d) g.tokens
  | class {g : Grammar.Class} {d : Class} (h : g.build = .ok d) : WrittenAs (.class d) g.tokens
  | forward {keyword : TokenKind} {kind : ForwardKind} {g : Grammar.Forward keyword} {d : Forward}
      (h : g.build kind = .ok d) : WrittenAs (forward d) g.tokens
  | exception {g : Grammar.Exception} {d : Exception} (h : g.build = .ok d) :
      WrittenAs (exception d) g.tokens
  | struct {g : Grammar.Struct} {d : Struct} (h : g.build = .ok d) : WrittenAs (.struct d) g.tokens
  | enum {g : Grammar.Enum} {d : Enum} (h : g.build = .ok d) : WrittenAs (enum d) g.tokens
  | sequence {g : Grammar.Sequence} {d : Sequence} (h : g.build = .ok d) :
      WrittenAs (sequence d) g.tokens
  | dictionary {g : Grammar.Dictionary} {d : Dictionary} (h : g.build = .ok d) :
      WrittenAs (dictionary d) g.tokens
  | const {g : Grammar.Const} {d : Const} (h : g.build = .ok d) : WrittenAs (const d) g.tokens
  | member {g : Grammar.DataMember} {m : DataMember} (h : g.build = .ok m) :
      WrittenAs (member m) g.tokens
  | operation {g : Grammar.Operation} {o : Operation} (h : g.build = .ok o) :
      WrittenAs (operation o) g.tokens
  | param {g : Grammar.Param} {p : Param} (h : g.build = .ok p) : WrittenAs (param p) g.tokens
  | enumerator {g : Grammar.Enumerator} {e : Enumerator} (h : g.build = .ok e) :
      WrittenAs (enumerator e) g.tokens

/-- The declarations are written one after the other among the tokens. -/
inductive Spread : List Node → List Token → Prop
  | nil (ts : List Token) : Spread [] ts
  | cons {n : Node} {ns : List Node} {own rest : List Token} (before : List Token)
      (h : WrittenAs n own) (hrest : Spread ns rest) : Spread (n :: ns) (before ++ own ++ rest)

variable {n : Node} {ns ns' : List Node} {ts us own : List Token}

theorem Spread.single (h : WrittenAs n ts) : Spread [n] ts := by
  have hs : Spread [n] ([] ++ ts ++ []) := .cons [] h (.nil [])
  simpa using hs

theorem Spread.behind (h : Spread ns ts) (before : List Token) : Spread ns (before ++ ts) := by
  cases h with
  | nil => exact .nil _
  | cons before' h hrest =>
    rw [List.append_assoc, ← List.append_assoc, ← List.append_assoc]
    exact .cons (before ++ before') h hrest

theorem Spread.append (h : Spread ns ts) (h' : Spread ns' us) :
    Spread (ns ++ ns') (ts ++ us) := by
  induction h with
  | nil ts => exact h'.behind ts
  | cons before h _ ih =>
    rw [List.append_assoc _ _ us]
    exact .cons before h ih

theorem Spread.inFront (h : Spread ns ts) (after : List Token) : Spread ns (ts ++ after) := by
  have hs := h.append (.nil after)
  rwa [List.append_nil] at hs

theorem Spread.items {α β γ : Type} {tokens : α → List Token} {choose : α → Option β}
    {build : β → Grammar.Build γ} {nodes : γ → List Node}
    (h : ∀ a b c, choose a = some b → build b = .ok c → Spread (nodes c) (tokens a))
    {as : List α} {cs : List γ} (hb : (as.filterMap choose).mapM build = .ok cs) :
    Spread (cs.flatMap nodes) (as.flatMap tokens) := by
  induction as generalizing cs with
  | nil =>
    cases hb
    exact .nil _
  | cons a as ih =>
    rw [List.flatMap_cons]
    cases hc : choose a with
    | none =>
      rw [List.filterMap_cons_none hc] at hb
      exact (ih hb).behind _
    | some b =>
      rw [List.filterMap_cons_some hc, List.mapM_cons] at hb
      simp only [Grammar.build_bind_eq_ok, Grammar.build_pure_eq_ok] at hb
      obtain ⟨c, hb, cs, hbs, rfl⟩ := hb
      rw [List.flatMap_cons]
      exact (h a b c hc hb).append (ih hbs)

theorem Spread.chosen {α β γ : Type} {tokens : α → List Token} {choose : α → Option β}
    {build : β → Grammar.Build γ} {node : γ → Node}
    (h : ∀ a b c, choose a = some b → build b = .ok c → Spread [node c] (tokens a))
    {as : List α} {cs : List γ} (hb : (as.filterMap choose).mapM build = .ok cs) :
    Spread (cs.map node) (as.flatMap tokens) := by
  rw [List.map_eq_flatMap]
  exact Spread.items h hb

theorem Spread.all {α β : Type} {tokens : α → List Token} {build : α → Grammar.Build β}
    {node : β → Node} (h : ∀ a b, build a = .ok b → Spread [node b] (tokens a))
    {as : List α} {bs : List β} (hb : as.mapM build = .ok bs) :
    Spread (bs.map node) (as.flatMap tokens) := by
  rw [← List.filterMap_some (l := as)] at hb
  refine Spread.chosen (fun a a' b ha hb => ?_) hb
  cases ha
  exact h a b hb

theorem Spread.separated {kind : TokenKind} {α β : Type} {tokens : α → List Token}
    {build : α → Grammar.Build β} {node : β → Node}
    (h : ∀ a b, build a = .ok b → WrittenAs (node b) (tokens a)) {first : α}
    {more : List (Grammar.Tok kind × α)} {bs : List β}
    (hb : (first :: more.map Prod.snd).mapM build = .ok bs) :
    Spread (bs.map node) (tokens first ++ Grammar.tailTokens tokens more) := by
  rw [List.mapM_cons] at hb
  simp only [Grammar.build_bind_eq_ok, Grammar.build_pure_eq_ok] at hb
  obtain ⟨b, hfirst, bs, hmore, rfl⟩ := hb
  rw [Grammar.Parser.tailTokens_eq_flatMap, List.map_cons, ← List.singleton_append]
  refine (Spread.single (h first b hfirst)).append ?_
  rw [List.mapM_map] at hmore
  refine Spread.all (fun x b hb => ?_) hmore
  exact (Spread.single (h x.2 b hb)).behind x.1.tokens

/-- The tokens start where the declaration is located, and it holds what is written behind the
first of them. -/
structure Leads (n : Node) (ts : List Token) : Prop where
  starts : StartsAt n.loc ts
  holds : ∀ l ∈ n.lists, Spread l ts.tail

variable {front rest : List Token}

theorem Leads.leaf (h : StartsAt n.loc ts) (hn : n.lists = []) : n.Leads ts :=
  ⟨h, fun l hl => by simp [hn] at hl⟩

theorem Leads.behind (h : StartsAt n.loc front) (hrest : ∀ l ∈ n.lists, Spread l rest) :
    n.Leads (front ++ rest) where
  starts := h.append rest
  holds l hl := by
    rw [h.tail_append]
    exact (hrest l hl).behind _

theorem Leads.list {l : List Node} (h : StartsAt n.loc front) (hn : n.lists = [l])
    (hrest : Spread l rest) : n.Leads (front ++ rest) := by
  refine .behind h fun l' hl => ?_
  obtain rfl : l' = l := by simpa [hn] using hl
  exact hrest

theorem Leads.append {us : List Token} (h : n.Leads ts) : n.Leads (ts ++ us) where
  starts := h.starts.append us
  holds l hl := by
    rw [h.starts.tail_append]
    exact (h.holds l hl).inFront us

section
open Grammar

theorem Spread.body {α : Type} {tokens : α → List Token} {body : Body α}
    (h : Spread ns (body.items.flatMap tokens)) : Spread ns (body.tokens tokens) :=
  ((h.behind _).inFront _).inFront _

theorem buildDefinitions_eq_mapM (ds : List Grammar.Definition) :
    buildDefinitions ds = ds.mapM Definition.build := by
  induction ds with
  | nil => rfl
  | cons d ds ih => rw [buildDefinitions, List.mapM_cons, ih]

theorem leads_member {g : Grammar.DataMember} {m : DataMember} (h : g.build = .ok m) :
    (member m).Leads g.tokens := by
  simp only [DataMember.build, build_bind_eq_ok, build_pure_eq_ok] at h
  obtain ⟨tag, -, default, -, metadata, -, rfl⟩ := h
  exact .leaf ((((startsAt_metadata g.type.startsAt g.metadata).append _).append _).append _) rfl

theorem leads_param {g : Grammar.Param} {p : Param} (h : g.build = .ok p) :
    (param p).Leads g.tokens := by
  simp only [Param.build, build_bind_eq_ok, build_pure_eq_ok] at h
  obtain ⟨tag, -, metadata, -, rfl⟩ := h
  have hstarts := startsAt_metadata (startsAt_optTok g.type.startsAt g.out) g.metadata
  rw [← List.append_assoc] at hstarts
  exact .leaf (hstarts.append _) rfl

theorem leads_enumerator {g : Grammar.Enumerator} {e : Enumerator} (h : g.build = .ok e) :
    (enumerator e).Leads g.tokens := by
  simp only [Enumerator.build, build_bind_eq_ok, build_pure_eq_ok] at h
  obtain ⟨value, -, rfl⟩ := h
  exact .leaf (g.name.startsAt.append _) rfl

theorem leads_operation {g : Grammar.Operation} {o : Operation} (h : g.build = .ok o) :
    (operation o).Leads g.tokens := by
  simp only [Operation.build, build_bind_eq_ok] at h
  obtain ⟨params, hparams, h⟩ := h
  split at h
  · cases h
  · simp only [build_bind_eq_ok, build_pure_eq_ok] at h
    obtain ⟨returnTag, -, metadata, -, rfl⟩ := h
    have hstarts := startsAt_metadata (startsAt_optTok g.type.startsAt g.idempotent) g.metadata
    rw [← List.append_assoc] at hstarts
    refine .append (.append (.append (.list ((hstarts.append _).append _) rfl ?_)))
    cases hg : g.params with
    | none =>
      rw [hg] at hparams
      cases hparams
      exact .nil _
    | some p =>
      rw [hg] at hparams
      exact Spread.separated (fun _ _ => .param) hparams

theorem leads_interface {g : Grammar.Interface} {d : Interface} (h : g.build = .ok d) :
    (interface d).Leads g.tokens := by
  simp only [Interface.build, build_bind_eq_ok, build_pure_eq_ok] at h
  obtain ⟨operations, hoperations, metadata, -, rfl⟩ := h
  refine .list (((g.modifiers.startsAt g.keyword.startsAt).append _).append _) rfl ?_
  exact .body (.all (fun _ _ hb => .single (.operation hb)) hoperations)

theorem leads_class {g : Grammar.Class} {d : Class} (h : g.build = .ok d) :
    (Node.class d).Leads g.tokens := by
  simp only [Class.build, build_bind_eq_ok, build_pure_eq_ok] at h
  obtain ⟨compactId, -, members, hmembers, operations, hoperations, metadata, -, rfl⟩ := h
  have hstarts := g.modifiers.startsAt g.keyword.startsAt
  refine .behind ((((hstarts.append _).append _).append _).append _) fun l hl => ?_
  obtain rfl | rfl : l = members.map member ∨ l = operations.map operation := by
    simpa [lists] using hl
  · refine .body (.chosen (fun item m _ hitem hb => ?_) hmembers)
    cases item with
    | member m' =>
      cases hitem
      exact .single (.member hb)
    | operation o => cases hitem
  · refine .body (.chosen (fun item o _ hitem hb => ?_) hoperations)
    cases item with
    | member m => cases hitem
    | operation o' =>
      cases hitem
      exact .single (.operation hb)

theorem leads_forward {keyword : TokenKind} {kind : ForwardKind} {g : Grammar.Forward keyword}
    {d : Forward} (h : g.build kind = .ok d) : (forward d).Leads g.tokens := by
  simp only [Forward.build, build_bind_eq_ok, build_pure_eq_ok] at h
  obtain ⟨metadata, -, rfl⟩ := h
  exact .leaf (((g.modifiers.startsAt g.keyword.startsAt).append _).append _) rfl

theorem leads_exception {g : Grammar.Exception} {d : Exception} (h : g.build = .ok d) :
    (exception d).Leads g.tokens := by
  simp only [Exception.build, build_bind_eq_ok, build_pure_eq_ok] at h
  obtain ⟨members, hmembers, metadata, -, rfl⟩ := h
  refine .list (((g.modifiers.startsAt g.keyword.startsAt).append _).append _) rfl ?_
  exact .body (.all (fun _ _ hb => .single (.member hb)) hmembers)

theorem leads_struct {g : Grammar.Struct} {d : Struct} (h : g.build = .ok d) :
    (Node.struct d).Leads g.tokens := by
  simp only [Struct.build, build_bind_eq_ok] at h
  obtain ⟨members, hmembers, h⟩ := h
  split at h
  · cases h
  · simp only [build_bind_eq_ok, build_pure_eq_ok] at h
    obtain ⟨metadata, -, rfl⟩ := h
    refine .list ((g.modifiers.startsAt g.keyword.startsAt).append _) rfl ?_
    exact .body (.all (fun _ _ hb => .single (.member hb)) hmembers)

theorem leads_enum {g : Grammar.Enum} {d : Enum} (h : g.build = .ok d) :
    (enum d).Leads g.tokens := by
  simp only [Enum.build, build_bind_eq_ok] at h
  obtain ⟨enumerators, henumerators, h⟩ := h
  split at h
  · cases h
  · simp only [build_bind_eq_ok, build_pure_eq_ok] at h
    obtain ⟨metadata, -, rfl⟩ := h
    have hstarts := g.modifiers.startsAt g.keyword.startsAt
    refine .append (.append (.list ((hstarts.append _).append _) rfl ?_))
    cases hg : g.enumerators with
    | none =>
      rw [hg] at henumerators
      cases henumerators
      exact .nil _
    | some es =>
      rw [hg] at henumerators
      exact (Spread.separated (fun _ _ => .enumerator) henumerators).inFront _

theorem leads_sequence {g : Grammar.Sequence} {d : Sequence} (h : g.build = .ok d) :
    (sequence d).Leads g.tokens := by
  simp only [Sequence.build, build_bind_eq_ok, build_pure_eq_ok] at h
  obtain ⟨elementMetadata, -, metadata, -, rfl⟩ := h
  have hstarts := g.modifiers.startsAt g.keyword.startsAt
  exact .leaf (((((hstarts.append _).append _).append _).append _).append _) rfl

theorem leads_dictionary {g : Grammar.Dictionary} {d : Dictionary} (h : g.build = .ok d) :
    (dictionary d).Leads g.tokens := by
  simp only [Dictionary.build, build_bind_eq_ok, build_pure_eq_ok] at h
  obtain ⟨keyMetadata, -, valueMetadata, -, metadata, -, rfl⟩ := h
  have hstarts := g.modifiers.startsAt g.keyword.startsAt
  exact .leaf (((((((hstarts.append _).append _).append _).append _).append _).append _).append _)
    rfl

theorem leads_const {g : Grammar.Const} {d : Const} (h : g.build = .ok d) :
    (const d).Leads g.tokens := by
  simp only [Const.build, build_bind_eq_ok, build_pure_eq_ok] at h
  obtain ⟨value, -, typeMetadata, -, metadata, -, rfl⟩ := h
  have hstarts := startsAt_metadata g.keyword.startsAt g.metadata
  exact .leaf ((((hstarts.append _).append _).append _).append _) rfl

theorem WrittenAs.definition {g : Grammar.Definition} {d : Definition} (h : g.build = .ok d) :
    WrittenAs (ofDefinition d) g.tokens := by
  rw [Definition.build.eq_def] at h
  cases g with
  | module g =>
    obtain ⟨d, hd, rfl⟩ := build_map_eq_ok.1 h
    exact .module hd
  | interface g =>
    obtain ⟨d, hd, rfl⟩ := build_map_eq_ok.1 h
    exact .interface hd
  | interfaceForward g =>
    obtain ⟨d, hd, rfl⟩ := build_map_eq_ok.1 h
    exact .forward hd
  | «class» g =>
    obtain ⟨d, hd, rfl⟩ := build_map_eq_ok.1 h
    exact .class hd
  | classForward g =>
    obtain ⟨d, hd, rfl⟩ := build_map_eq_ok.1 h
    exact .forward hd
  | exception g =>
    obtain ⟨d, hd, rfl⟩ := build_map_eq_ok.1 h
    exact .exception hd
  | struct g =>
    obtain ⟨d, hd, rfl⟩ := build_map_eq_ok.1 h
    exact .struct hd
  | enum g =>
    obtain ⟨d, hd, rfl⟩ := build_map_eq_ok.1 h
    exact .enum hd
  | sequence g =>
    obtain ⟨d, hd, rfl⟩ := build_map_eq_ok.1 h
    exact .sequence hd
  | dictionary g =>
    obtain ⟨d, hd, rfl⟩ := build_map_eq_ok.1 h
    exact .dictionary hd
  | const g =>
    obtain ⟨d, hd, rfl⟩ := build_map_eq_ok.1 h
    exact .const hd

theorem leads_module {g : Grammar.Module} {d : Module} (h : g.build = .ok d) :
    (module d).Leads g.tokens := by
  cases g with
  | mk metadata keyword name left definitions right semicolon =>
  simp only [Module.build, build_bind_eq_ok, build_pure_eq_ok] at h
  obtain ⟨strings, -, ds, hds, rfl⟩ := h
  rw [buildDefinitions_eq_mapM] at hds
  rw [Module.tokens, definitionsTokens_eq_flatMap]
  have hstarts := startsAt_metadata keyword.startsAt metadata
  refine .append (.append (.list ((hstarts.append _).append _) rfl ?_))
  exact .all (fun _ _ hb => .single (.definition hb)) hds

/-- A declaration is located at the first of its tokens, and holds what is written behind it. -/
theorem WrittenAs.leads (h : WrittenAs n ts) : n.Leads ts := by
  cases h with
  | module h => exact leads_module h
  | interface h => exact leads_interface h
  | «class» h => exact leads_class h
  | forward h => exact leads_forward h
  | exception h => exact leads_exception h
  | struct h => exact leads_struct h
  | enum h => exact leads_enum h
  | sequence h => exact leads_sequence h
  | dictionary h => exact leads_dictionary h
  | const h => exact leads_const h
  | member h => exact leads_member h
  | operation h => exact leads_operation h
  | param h => exact leads_param h
  | enumerator h => exact leads_enumerator h

end

end Node

end SliceIdl
