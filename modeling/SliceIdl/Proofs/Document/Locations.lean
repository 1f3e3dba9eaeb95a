import SliceIdl.Proofs.Document.EarliestProblem
import SliceIdl.Proofs.Document.Nodes
import SliceIdl.Proofs.Document.Relocation
import SliceIdl.Proofs.Source.Positions

/-!
# Where declarations and errors are located

Every declaration is located where its text starts, and every error at a token or at the character
that is no part of one. As tokens stand at ever later positions, locations grow along each list of
declarations and from a declaration to what it holds.
-/

set_option autoImplicit false

namespace SliceIdl

namespace Node

variable {n : Node} {ns : List Node} {ts : List Token}

theorem WrittenAs.head (h : WrittenAs n ts) :
    ∃ t rest, ts = t :: rest ∧ n.loc = t.pos ∧ ∀ l ∈ n.lists, Spread l rest := by
  obtain ⟨hstarts, hholds⟩ := h.leads
  cases ts with
  | nil => cases hstarts
  | cons t rest => exact ⟨t, rest, rfl, (Option.some.inj hstarts).symm, hholds⟩

theorem Spread.exists_own (h : Spread ns ts) (hn : n ∈ ns) :
    ∃ before own after, ts = before ++ own ++ after ∧ WrittenAs n own := by
  induction h with
  | nil => cases hn
  | @cons _ _ first _ before h _ ih =>
    rcases List.mem_cons.1 hn with rfl | hn
    · exact ⟨_, _, _, rfl, h⟩
    · obtain ⟨before', own, after, rfl, hown⟩ := ih hn
      exact ⟨before ++ first ++ before', own, after, by simp only [List.append_assoc], hown⟩

theorem Spread.exists_token (h : Spread ns ts) (hn : n ∈ ns) : ∃ t ∈ ts, t.pos = n.loc := by
  obtain ⟨before, own, after, rfl, hown⟩ := h.exists_own hn
  obtain ⟨t, rest, rfl, hpos, -⟩ := hown.head
  exact ⟨t, by simp, hpos.symm⟩

theorem Spread.pairwise (h : Spread ns ts)
    (hts : ts.Pairwise fun t u => t.pos.Precedes u.pos) :
    (ns.map loc).Pairwise Position.Precedes := by
  induction h with
  | nil => exact List.Pairwise.nil
  | cons before h hrest ih =>
    obtain ⟨hfront, hafter, hcross⟩ := List.pairwise_append.1 hts
    obtain ⟨t, own, rfl, hpos, -⟩ := h.head
    rw [List.map_cons]
    refine List.pairwise_cons.2 ⟨fun q hq => ?_, ih hafter⟩
    obtain ⟨m, hm, rfl⟩ := List.mem_map.1 hq
    obtain ⟨u, hu, hupos⟩ := hrest.exists_token hm
    rw [hpos, ← hupos]
    exact hcross t (by simp) u hu

end Node

inductive Document.Has (d : Document) : Node → Prop
  | module {m : Module} (h : m ∈ d.modules) : Has d (.module m)
  | child {n m : Node} {l : List Node} (h : Has d n) (hl : l ∈ n.lists) (hm : m ∈ l) : Has d m

/-- The declaration is built from tokens that follow one another. It is located where the text of
the first of them is, and what it holds is built from the others. -/
def Node.StandsIn (n : Node) (source : Text) : Prop :=
  ∃ before t own after, (Scan.ofText source).tokens = before ++ t :: own ++ after ∧
    n.WrittenAs (t :: own) ∧ t.IsAt source ∧ n.loc = t.pos ∧ ∀ l ∈ n.lists, Node.Spread l own

/-- The locations in a document: each is where the text of the declaration starts, and they grow
along each list of declarations and from a declaration to what it holds. -/
structure Document.Located (source : Text) (d : Document) : Prop where
  written : Node.Spread (d.modules.map Node.module) (Scan.ofText source).tokens
  stands : ∀ n, d.Has n → n.StandsIn source
  modules : (d.modules.map Module.loc).Pairwise Position.Precedes
  siblings : ∀ n, d.Has n → ∀ l ∈ n.lists, (l.map Node.loc).Pairwise Position.Precedes
  children : ∀ n, d.Has n → ∀ l ∈ n.lists, ∀ m ∈ l, n.loc.Precedes m.loc

namespace Grammar

theorem documentOf_spread {f : File} {es : List Entry} (h : f.mapM TopItem.build = .ok es) :
    Node.Spread ((documentOf es).modules.map Node.module) (File.tokens f) := by
  have hnodes : ∀ (i : TopItem) (e : Entry), i.build = .ok e →
      Node.Spread (e.module?.toList.map Node.module) i.tokens := by
    intro i e hi
    cases i with
    | pragmaOnce t =>
      obtain rfl := build_pure_eq_ok.1 hi
      exact .nil _
    | includeFile t =>
      obtain ⟨name, -, rfl⟩ := build_map_eq_ok.1 hi
      exact .nil _
    | metadata m =>
      obtain ⟨strings, -, rfl⟩ := build_map_eq_ok.1 hi
      exact .nil _
    | module g =>
      obtain ⟨m, hm, rfl⟩ := build_map_eq_ok.1 hi
      exact .single (.module hm)
  rw [← List.filterMap_some (l := f)] at h
  have hs : Node.Spread (es.flatMap fun e => e.module?.toList.map Node.module)
      (f.flatMap TopItem.tokens) := by
    refine Node.Spread.items (fun i i' e hi he => ?_) h
    cases hi
    exact hnodes i e he
  rwa [← List.map_flatMap, ← List.filterMap_eq_flatMap_toList] at hs

end Grammar

theorem Document.modules_spread {source : Text} {d : Document}
    (h : Document.parse source = .ok d) :
    Node.Spread (d.modules.map Node.module) (Scan.ofText source).tokens := by
  obtain ⟨f, hf, hd⟩ := Document.parse_eq_ok.1 h
  obtain ⟨es, hes, rfl⟩ := Grammar.build_map_eq_ok.1 hd
  rw [← (parseFile_eq_ok.1 hf).2]
  exact Grammar.documentOf_spread hes

theorem Document.Has.standsIn {source : Text} {d : Document} (h : Document.parse source = .ok d)
    {n : Node} (hn : d.Has n) : n.StandsIn source := by
  induction hn with
  | module hm =>
    obtain ⟨before, own, after, htokens, hown⟩ :=
      (modules_spread h).exists_own (List.mem_map_of_mem hm)
    obtain ⟨t, own, rfl, hloc, hlists⟩ := hown.head
    exact ⟨before, t, own, after, htokens, hown, Scan.isAt (by simp [htokens]), hloc, hlists⟩
  | child _ hl hm ih =>
    obtain ⟨before, t, own, after, htokens, -, -, -, hlists⟩ := ih
    obtain ⟨before', own', after', rfl, hown⟩ := (hlists _ hl).exists_own hm
    obtain ⟨u, own', rfl, hloc, hlists'⟩ := hown.head
    have htokens' : (Scan.ofText source).tokens =
        (before ++ t :: before') ++ u :: own' ++ (after' ++ after) := by
      rw [htokens]
      simp
    exact ⟨_, u, own', _, htokens', hown, Scan.isAt (by simp [htokens']), hloc, hlists'⟩

theorem Scan.pairwise_behind {source : Text} {before own after : List Token} {t : Token}
    (h : (Scan.ofText source).tokens = before ++ t :: own ++ after) :
    (∀ u ∈ own, t.pos.Precedes u.pos) ∧ own.Pairwise fun t u => t.pos.Precedes u.pos := by
  have hpairwise := Scan.tokens_pairwise source
  rw [h, List.append_assoc] at hpairwise
  exact List.pairwise_cons.1 (List.pairwise_append.1 (List.pairwise_append.1 hpairwise).2.1).1

theorem Document.located {source : Text} {d : Document} (h : Document.parse source = .ok d) :
    d.Located source where
  written := modules_spread h
  stands n hn := hn.standsIn h
  modules := by
    have hs := (modules_spread h).pairwise (Scan.tokens_pairwise source)
    rwa [List.map_map] at hs
  siblings n hn l hl := by
    obtain ⟨before, t, own, after, htokens, -, -, -, hlists⟩ := hn.standsIn h
    exact (hlists l hl).pairwise (Scan.pairwise_behind htokens).2
  children n hn l hl m hm := by
    obtain ⟨before, t, own, after, htokens, -, -, hloc, hlists⟩ := hn.standsIn h
    obtain ⟨u, hu, hupos⟩ := (hlists l hl).exists_token hm
    rw [hloc, ← hupos]
    exact (Scan.pairwise_behind htokens).1 u hu

/-- A numeral has more digits than the limit allows. This is not an error of syntax and has no
place; all other errors have one. -/
def SyntaxError.isDigitLimit : SyntaxError → Bool
  | rejected (.longNumeral _) | rejected .longNegativeTag => true
  | _ => false

/-- The position is that of a character of the text, at which a token starts or at which the text
stops being cut into tokens, as no terminal matches there. -/
def PointsAt (source : Text) (pos : Position) : Prop :=
  ∃ before c after, source = before ++ c :: after ∧ pos = .behind before ∧
    ((∃ t ∈ (Scan.ofText source).tokens, t.pos = pos ∧ t.text <+: c :: after) ∨
      (Scan.ofText source).stop = some (c, pos) ∧
        ∀ k ∈ terminals, k.2.split? (c :: after) = none)

def SyntaxError.Located (source : Text) (e : SyntaxError) : Prop :=
  e.isDigitLimit ∨ ∃ pos, e.pos? = some pos ∧ PointsAt source pos

section
variable {source : Text} {pos : Position}

theorem pointsAt_token {t : Token} (ht : t ∈ (Scan.ofText source).tokens) :
    PointsAt source t.pos := by
  obtain ⟨before, after, hsource, hne, hpos⟩ := Scan.isAt ht
  obtain ⟨c, rest, hc⟩ := List.exists_cons_of_ne_nil hne
  refine ⟨before, c, rest ++ after, ?_, hpos, .inl ⟨t, ht, rfl, ?_⟩⟩
  · rw [hsource, hc, List.append_assoc, List.cons_append]
  · rw [hc]
    exact ⟨after, rfl⟩

theorem pointsAt_stop {c : Char} (h : (Scan.ofText source).stop = some (c, pos)) :
    PointsAt source pos := by
  obtain ⟨after, hsource, hpos, hterminals⟩ := Scan.ofText_stop h
  exact ⟨_, c, after, hsource, by rw [hpos, Position.start_after], .inr ⟨h, hterminals⟩⟩

theorem pointsAt_end (h : Grammar.File.ofTokens (Scan.ofText source).tokens = .error []) :
    PointsAt source (endPosition (Scan.ofText source).tokens) := by
  -- A text without tokens is a file, so a text that ends too early has some.
  have hne : (Scan.ofText source).tokens ≠ [] := by
    intro hnil
    have hempty : Grammar.File.ofTokens [] = .ok [] := Grammar.File.ofTokens_eq_ok.2 rfl
    rw [hnil, hempty] at h
    cases h
  rw [endPosition, List.getLast?_eq_some_getLast hne]
  exact pointsAt_token (List.getLast_mem hne)

theorem parseFile_located {e : SyntaxError} (h : parseFile source = .error e) :
    ∃ pos, e.pos? = some pos ∧ PointsAt source pos := by
  rw [parseFile] at h
  split at h
  · next t after htokens =>
    cases h
    obtain ⟨before, hbefore, -⟩ := Grammar.File.ofTokens_eq_error htokens
    exact ⟨t.pos, rfl, pointsAt_token (by simp [hbefore])⟩
  · next c pos hstop _ =>
    cases h
    exact ⟨pos, rfl, pointsAt_stop hstop⟩
  · next htokens _ =>
    cases h
    exact ⟨_, rfl, pointsAt_end htokens⟩
  · cases h

end

namespace Grammar

variable {f : File} {reason : Rejection} {p : Position}

theorem File.exists_token_of_rejected (h : File.build f = .error reason)
    (hp : reason.pos? = some p) : ∃ t ∈ File.tokens f, t.pos = p := by
  -- If no token were there, the file would be the same with that position replaced by another one.
  by_contra hnone
  let φ : Position → Position := fun q => if q = p then q.next 'x' else q
  have hkept : ∀ t ∈ File.tokens f, t.relocate φ = t := by
    intro t ht
    have hpos : φ t.pos = t.pos := if_neg fun heq => hnone ⟨t, ht, heq⟩
    rw [Token.relocate, hpos]
  have hsame : File.relocate φ f = f := by
    refine File.tokens_injective ?_
    rw [File.tokens_relocate]
    simpa using List.map_congr_left hkept
  have hbuild := File.build_relocate φ f
  rw [hsame, h] at hbuild
  have hreason : reason = reason.relocate φ := Except.error.inj hbuild
  have hmoved : φ p = p := by
    cases reason <;> cases hp <;> simpa [Rejection.relocate] using hreason.symm
  have hcolumn : p.column + 1 = p.column := by
    simpa [φ, Position.next] using congrArg Position.column hmoved
  exact Nat.succ_ne_self p.column hcolumn

end Grammar

theorem SyntaxError.located {source : Text} {e : SyntaxError}
    (h : Document.parse source = .error e) : e.Located source := by
  rw [Document.parse] at h
  cases hf : parseFile source with
  | error e' =>
    rw [hf] at h
    cases h
    exact .inr (parseFile_located hf)
  | ok f =>
    rw [hf] at h
    cases hb : Grammar.File.build f with
    | ok d => simp [bind, Except.bind, hb, Except.mapError] at h
    | error reason =>
      obtain rfl : .rejected reason = e := by simpa [bind, Except.bind, hb, Except.mapError] using h
      cases hpos : reason.pos? with
      | none => exact .inl (by cases reason <;> first | rfl | cases hpos)
      | some p =>
        obtain ⟨t, ht, rfl⟩ := Grammar.File.exists_token_of_rejected hb hpos
        rw [(parseFile_eq_ok.1 hf).2] at ht
        exact .inr ⟨t.pos, hpos, pointsAt_token ht⟩

/-- Whatever a text is parsed as, a document or an error, it is located in the text. -/
theorem Document.parse_located (source : Text) :
    match Document.parse source with
    | .ok d => d.Located source
    | .error e => e.Located source := by
  split
  · next d h => exact located h
  · next e h => exact SyntaxError.located h

/-- The metadata and the `local` in front of a class count. -/
example : (Document.parse "module M \x7b\n  [\"a\"] local class C; \x7d".toList).toOption.map
    (fun d => d.modules.map fun m => (m.loc, m.definitions.map (Node.loc ∘ Node.ofDefinition))) =
      some [(⟨1, 1⟩, [⟨2, 3⟩])] := by
  decide +kernel

end SliceIdl
