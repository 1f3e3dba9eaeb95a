import SliceIdl.Proofs.Load.Interleaving

/-!
# Looking for a file

A file is looked for below the roots in order, and the first root below which it is more than just
not readable decides. If reading has failed there in another way, this failure is passed on as it
is. If there is a text, it is parsed; whatever the parser fails with, and be it a failure to find
some other file, is reported as a failure of this one. Only if no root decides the name is not
found.
-/

set_option autoImplicit false

namespace SliceIdl

variable {Doc : Type}

def ReadOutcome.isFinal : ReadOutcome → Bool
  | unreadable _ => false
  | text _ | broken _ => true

namespace ReadOutcome

theorem isFinal_eq_false {o : ReadOutcome} : o.isFinal = false ↔ ∃ e, o = .unreadable e := by
  cases o <;> simp [isFinal]

end ReadOutcome

namespace Reader

variable {reader : Reader} {name : Text} {roots : List Text}

/-- The place in the list of the root that decides. -/
def decider? (reader : Reader) (name : Text) (roots : List Text) : Option Nat :=
  roots.findIdx? fun root => (reader.read (probePath root name)).isFinal

def searched (reader : Reader) (name : Text) (roots : List Text) : List Text :=
  match reader.decider? name roots with
  | some k => roots.take (k + 1)
  | none => roots

theorem probes_eq (reader : Reader) (name : Text) (roots : List Text) :
    reader.probes name roots = (reader.searched name roots).map fun root =>
      (probePath root name, reader.read (probePath root name)) := by
  induction roots with
  | nil => rfl
  | cons root roots ih =>
    rw [probes, searched, decider?, List.findIdx?_cons]
    cases hr : reader.read (probePath root name) with
    | unreadable e =>
      rw [searched, decider?] at ih
      simp only [ih]
      cases roots.findIdx? fun root => (reader.read (probePath root name)).isFinal with
      | none => simp [ReadOutcome.isFinal, hr]
      | some k => simp [ReadOutcome.isFinal, hr]
    | broken f => simp [ReadOutcome.isFinal, hr]
    | text t => simp [ReadOutcome.isFinal, hr]

theorem unreadable_of_decider?_none (h : reader.decider? name roots = none) :
    ∀ root ∈ roots, ∃ e, reader.read (probePath root name) = .unreadable e := by
  intro root hr
  rw [decider?, List.findIdx?_eq_none_iff] at h
  exact ReadOutcome.isFinal_eq_false.1 (h root hr)

theorem exists_of_decider? {k : Nat} (h : reader.decider? name roots = some k) :
    ∃ before root after, roots = before ++ root :: after ∧ before.length = k ∧
      (∀ r ∈ before, ∃ e, reader.read (probePath r name) = .unreadable e) ∧
      (reader.read (probePath root name)).isFinal = true := by
  rw [decider?, List.findIdx?_eq_some_iff_getElem] at h
  obtain ⟨hk, hfinal, hbefore⟩ := h
  refine ⟨roots.take k, roots[k], roots.drop (k + 1), ?_, ?_, ?_, hfinal⟩
  · rw [← List.drop_eq_getElem_cons hk, List.take_append_drop]
  · rw [List.length_take, Nat.min_eq_left (Nat.le_of_lt hk)]
  · intro r hr
    obtain ⟨i, hi, rfl⟩ := List.mem_take_iff_getElem.1 hr
    exact ReadOutcome.isFinal_eq_false.1 (Bool.eq_false_iff.2 (hbefore i (by omega)))

theorem exists_reads (read : Text → ReadOutcome) (paths : List Text) :
    ∃ reader : Reader, ∀ path ∈ paths, reader.read path = read path := by
  refine ⟨.ofFiles (paths.map fun path => (path, read path)), fun path hp => ?_⟩
  have hlookup : (paths.map fun path => (path, read path)).lookup path = some (read path) := by
    induction paths with
    | nil => cases hp
    | cons first paths ih =>
      rw [List.map_cons, List.lookup_cons]
      by_cases he : path = first
      · simp [he]
      · rw [beq_false_of_ne he]
        exact ih ((List.mem_cons.1 hp).resolve_left he)
  rw [ofFiles]
  dsimp only
  rw [hlookup, Option.getD_some]

end Reader

/-- What the outcome of the deciding read comes to. -/
inductive Decides (language : Language Doc) (name root : Text) :
    ReadOutcome → Except LoadFailure (LoadedUnit Doc) → Prop
  | broken (f : Fault) : Decides language name root (.broken f) (.error (.fault f))
  | loaded {text : Text} {document : Doc} (h : language.parse text = .ok document) :
      Decides language name root (.text text) (.ok ⟨root, text, document⟩)
  | refused {text message : Text} {line column : Option Int}
      (h : language.parse text = .error (.refused message line column)) :
      Decides language name root (.text text)
        (.error (.error (.unparsable name (probePath root name) message line column)))
  | failed {text kind message : Text} {line column : Option Int}
      (h : language.parse text = .error (.failed kind message line column)) :
      Decides language name root (.text text)
        (.error (.error (.unparsable name (probePath root name)
          (if message = [] then kind else message) line column)))

section

variable {reader : Reader} {language : Language Doc} {name : Text} {origin : Option Text}

theorem Decides.unique {root : Text} {o : ReadOutcome}
    {result result' : Except LoadFailure (LoadedUnit Doc)}
    (h : Decides language name root o result) (h' : Decides language name root o result') :
    result = result' := by
  cases h with
  | broken f =>
    cases h'
    rfl
  | loaded h => cases h' <;> simp_all
  | refused h => cases h' <;> simp_all
  | failed h => cases h' <;> simp_all

theorem decides_ofText {text : Text} (root : Text) :
    Decides language name root (.text text) (LoadedUnit.ofText language name root text) := by
  rw [LoadedUnit.ofText]
  cases hp : language.parse text with
  | ok document => exact .loaded hp
  | error failure =>
    cases failure with
    | refused message line column => exact .refused hp
    | failed kind message line column =>
      have hdetail : (ParseFailure.failed kind message line column).detail =
          if message = [] then kind else message := by
        cases message <;> rfl
      dsimp only
      rw [hdetail]
      exact .failed hp

theorem decides_loadUnit {root : Text} (h : (reader.read (probePath root name)).isFinal = true)
    (after : List Text) :
    Decides language name root (reader.read (probePath root name))
      (loadUnit reader language name origin (root :: after)).2 := by
  rw [loadUnit]
  cases hr : reader.read (probePath root name) with
  | unreadable e =>
    rw [hr] at h
    cases h
  | broken f => exact .broken f
  | text t => exact decides_ofText root

end

/-- Whatever can be read below the roots, there is a reader for it. The reads for a name are those
below the roots up to the first one that decides, in order. What is read there decides how the name
comes out, and without such a root it is not found. -/
theorem loadUnit_decided (language : Language Doc) (name : Text) (origin : Option Text)
    (roots : List Text) :
    (∀ read : Text → ReadOutcome, ∃ reader : Reader, ∀ root ∈ roots,
      reader.read (probePath root name) = read (probePath root name)) ∧
    ∀ reader : Reader,
      (loadUnit reader language name origin roots).1.filterMap LoadEvent.read? =
        (reader.searched name roots).map (fun root =>
          (probePath root name, reader.read (probePath root name))) ∧
      (reader.decider? name roots = none →
        (loadUnit reader language name origin roots).2 = .error (.error (.notFound name origin))) ∧
      ∀ k, reader.decider? name roots = some k → ∃ root, roots[k]? = some root ∧
        Decides language name root (reader.read (probePath root name))
          (loadUnit reader language name origin roots).2 := by
  constructor
  · intro read
    obtain ⟨reader, hreader⟩ := Reader.exists_reads read (roots.map (probePath · name))
    exact ⟨reader, fun root hr => hreader _ (List.mem_map_of_mem hr)⟩
  intro reader
  refine ⟨?reads, ?missing, ?decided⟩
  case reads => rw [loadUnit_events, loadUnit_reads, Reader.probes_eq]
  case missing =>
    intro hnone
    have happend : (loadUnit reader language name origin (roots ++ [])).2 = _ :=
      loadUnit_append (Reader.unreadable_of_decider?_none hnone) []
    rw [List.append_nil] at happend
    rw [happend, loadUnit]
  case decided =>
    intro k hk
    obtain ⟨before, root, after, rfl, rfl, hbefore, hfinal⟩ := Reader.exists_of_decider? hk
    refine ⟨root, by simp, ?_⟩
    rw [loadUnit_append hbefore]
    exact decides_loadUnit hfinal after

namespace Helpless

/-- A parser that fails to find some file of its own. -/
def language : Language Unit where
  parse _ := .error (.failed "FileNotFoundError".toList [] none (some 3))
  includes _ := []

def reader : Reader :=
  .ofFiles [("q/A.ice".toList, .unreadable .notText), ("r/A.ice".toList, .text ['x']),
    ("s/A.ice".toList, .text [])]

def roots : List Text := [['q'], ['r'], ['s']]

end Helpless

/-- The failure of the parser does not lead to the third root. -/
theorem loadUnit_decided_helpless :
    Helpless.reader.decider? ['A'] Helpless.roots = some 1 ∧
    (loadUnit Helpless.reader Helpless.language ['A'] none Helpless.roots).1.filterMap
        LoadEvent.read? =
      [("q/A.ice".toList, .unreadable .notText), ("r/A.ice".toList, .text ['x'])] ∧
    (loadUnit Helpless.reader Helpless.language ['A'] none Helpless.roots).2 =
      .error (.error (.unparsable ['A'] "r/A.ice".toList "FileNotFoundError".toList none
        (some 3))) := by
  obtain ⟨hreads, -, hdecided⟩ :=
    (loadUnit_decided Helpless.language ['A'] none Helpless.roots).2 Helpless.reader
  have hdecider : Helpless.reader.decider? ['A'] Helpless.roots = some 1 := by decide
  obtain ⟨root, hroot, hdecides⟩ := hdecided 1 hdecider
  obtain rfl : ['r'] = root := Option.some.inj hroot
  have hread : Helpless.reader.read (probePath ['r'] ['A']) = .text ['x'] := by decide
  rw [hread] at hdecides
  have hfailed := hdecides.unique (.failed rfl)
  exact ⟨hdecider, hreads.trans (by decide), hfailed⟩

end SliceIdl
