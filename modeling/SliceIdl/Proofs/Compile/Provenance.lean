import SliceIdl.Proofs.Compile.Trials

/-!
# Which file an input is compiled from

An input file is named below the most specific root that contains it, but its name is looked up
below the first root that has a readable file of that name. So an input is compiled from itself if
it is readable and no root in front of its own one hides it; otherwise a file of another root is
compiled in its place. Two inputs of one name share one unit, which is read from one of them at
most.
-/

set_option autoImplicit false

namespace SliceIdl
open SliceIdl.Path

variable {Doc : Type}

theorem takeWhile_of_refused {α : Type} {p : α → Bool} {x : α} (hx : p x = false)
    (before after : List α) : ∀ y ∈ (before ++ x :: after).takeWhile p, y ∈ before := by
  induction before with
  | nil => simp [hx]
  | cons z before ih =>
    intro y hy
    rw [List.cons_append, List.takeWhile_cons] at hy
    split at hy
    · rcases List.mem_cons.1 hy with rfl | hy
      · exact List.mem_cons_self
      · exact List.mem_cons_of_mem _ (ih y hy)
    · cases hy

theorem takeWhile_of_two {α : Type} [BEq α] [LawfulBEq α] {xs : List α} {x y : α} (hx : x ∈ xs)
    (hy : y ∈ xs) (hne : x ≠ y) : x ∈ xs.takeWhile (· != y) ∨ y ∈ xs.takeWhile (· != x) := by
  induction xs with
  | nil => cases hx
  | cons z xs ih =>
    by_cases hzx : z = x
    · subst hzx
      exact .inl (by simp [hne])
    by_cases hzy : z = y
    · subst hzy
      exact .inr (by simp [Ne.symm hne])
    have hx' : x ∈ xs := (List.mem_cons.1 hx).resolve_left (Ne.symm hzx)
    have hy' : y ∈ xs := (List.mem_cons.1 hy).resolve_left (Ne.symm hzy)
    simpa [hzx, hzy, Ne.symm hzx, Ne.symm hzy] using ih hx' hy'

/-- Below the root, and no root in front of it, a name is found. -/
def Reader.FoundFirst (reader : Reader) (roots : List Text) (name root : Text) : Prop :=
  root ∈ roots ∧ (∃ t, reader.read (probePath root name) = .text t) ∧
    ∀ other ∈ roots.takeWhile (· != root), ∀ t, reader.read (probePath other name) ≠ .text t

theorem Reader.FoundFirst.unique {reader : Reader} {roots : List Text} {name root other : Text}
    (h : reader.FoundFirst roots name root) (h' : reader.FoundFirst roots name other) :
    root = other := by
  by_contra hne
  obtain ⟨t, ht⟩ := h.2.1
  obtain ⟨t', ht'⟩ := h'.2.1
  rcases takeWhile_of_two h.1 h'.1 hne with hr | ho
  · exact h'.2.2 root hr t ht
  · exact h.2.2 other ho t' ht'

theorem foundFirst_of_load {l : Loader Doc} {name : Text} {origin : Option Text}
    {loaded : LoadedUnit Doc} (h : l.load name origin = .ok loaded) :
    l.reader.FoundFirst l.roots name loaded.root := by
  obtain ⟨⟨before, after, hroots, hb⟩, hread, -⟩ := loadUnit_first h
  rw [hroots]
  have hfirst : ∀ other ∈ (before ++ loaded.root :: after).takeWhile (· != loaded.root),
      ∀ t, l.reader.read (probePath other name) ≠ .text t := by
    intro other ho t ht
    obtain ⟨e, he⟩ := hb other (takeWhile_of_refused (by simp) before after other ho)
    rw [he] at ht
    cases ht
  exact ⟨by simp, ⟨_, hread⟩, hfirst⟩

structure Provenance (reader : Reader) (roots : List Text) (path name own : Text)
    (loaded : LoadedUnit Doc) : Prop where
  named : LogicalName.resolve path roots = .ok name
  below : LogicalName.MostSpecific path roots own
  found : reader.FoundFirst roots name loaded.root
  read : reader.read (probePath loaded.root name) = .text loaded.contents
  /-- It is read from the input itself if the input's own root is the first one that has the name,
  save for a second leading slash, which the name of a file below the root of all files loses. -/
  itself : probePath loaded.root name = path ↔
    reader.FoundFirst roots name own ∧ ¬ (own = ['/'] ∧ ['/', '/'] <+: path)

theorem exists_provenance {l : Loader Doc} {path name : Text} {origin : Option Text}
    {loaded : LoadedUnit Doc} (hp : IsCanonical path) (hr : ∀ r ∈ l.roots, IsCanonical r)
    (hn : LogicalName.resolve path l.roots = .ok name) (hl : l.load name origin = .ok loaded) :
    ∃ own, Provenance l.reader l.roots path name own loaded := by
  obtain ⟨own, hown, hpath⟩ := LogicalName.resolve_eq_ok hn
  have hfound := foundFirst_of_load hl
  have hitself : probePath loaded.root name = path ↔
      l.reader.FoundFirst l.roots name own ∧ ¬ (own = ['/'] ∧ ['/', '/'] <+: path) := by
    rw [hown.probePath_eq_iff hp hr hpath hfound.1]
    apply and_congr_left
    intro _
    constructor
    · intro h
      exact h ▸ hfound
    · exact hfound.unique
  exact ⟨own, hn, hown, hfound, (loadUnit_first hl).2.1, hitself⟩

/-- The unit that a plan has for an input. -/
theorem Compilation.plan_provenance {w : Workspace} {o : CompileOptions} {p : Plan}
    (h : (plan w o).result = .ok p) {path name : Text} (hi : (path, name) ∈ p.inputs) :
    ∃ own loaded, (∀ other, (name, other) ∈ p.units ↔ other = loaded) ∧
      Provenance w.reader (o.absoluteRoots w.cwdPath) (absolute w.cwdPath path) name own
        loaded := by
  obtain ⟨paths, -, hn, hu, -⟩ := plan_eq_ok.1 h
  obtain ⟨-, hnamed⟩ := nameInputs_eq_ok hn
  obtain ⟨-, hreach, hload⟩ := Loader.loadClosure_units _ hu
  have hinitial : (loader w (o.absoluteRoots w.cwdPath)).Reachable (p.inputs.map Prod.snd) name :=
    .initial (List.mem_map_of_mem (f := Prod.snd) hi)
  obtain ⟨⟨first, loaded⟩, hmem, hfirst⟩ := List.mem_map.1 ((hreach name).2 hinitial)
  obtain rfl : name = first := hfirst.symm
  have hname := hnamed (path, name) hi
  have hcanonical : IsCanonical (absolute w.cwdPath path) := absolute_canonical rfl path
  obtain ⟨own, hown⟩ := exists_provenance hcanonical absoluteRoots_canonical hname
    (hload name loaded hmem)
  have hone : ∀ other, (name, other) ∈ p.units ↔ other = loaded := by
    intro other
    constructor
    · intro ho
      have heq := (hload _ _ ho).symm.trans (hload _ _ hmem)
      exact Except.ok.inj heq
    · intro ho
      exact ho ▸ hmem
  exact ⟨own, loaded, hone, hown⟩

/-- After a command that ends with zero, an input was compiled from itself if and only if its most
specific root is the first one below which its name is found; otherwise it is the file below the
first such root. Inputs of one name share its unit, so no two of them are compiled from
themselves. -/
theorem Command.exit_zero_provenance {s : Surroundings} {w : Workspace} {arguments : List Text}
    {c : CommandLine} (h : CommandLine.ofArguments arguments = .ok c)
    (he : (run s w arguments).ending = .exit 0) :
    ∃ p, (Compilation.plan w (compileOptions s w c)).result = .ok p ∧
      (Compilation.selectInputs w c.files c.excludes).result = .ok (p.inputs.map Prod.fst) ∧
      (∀ path name, (path, name) ∈ p.inputs →
        ∃ own loaded, (∀ other, (name, other) ∈ p.units ↔ other = loaded) ∧
          Provenance w.reader ((compileOptions s w c).absoluteRoots w.cwdPath)
            (absolute w.cwdPath path) name own loaded) ∧
      ∀ path path' name loaded, (path, name) ∈ p.inputs → (path', name) ∈ p.inputs →
        (name, loaded) ∈ p.units →
        probePath loaded.root name = absolute w.cwdPath path →
        probePath loaded.root name = absolute w.cwdPath path' → path = path' := by
  obtain ⟨p, outputs, hp, -⟩ := (exit_zero_iff h).1 he
  obtain ⟨paths, hsel, hn, -⟩ := Compilation.plan_eq_ok.1 hp
  obtain ⟨rfl, -⟩ := Compilation.nameInputs_eq_ok hn
  have hone : ∀ path path' name loaded, (path, name) ∈ p.inputs → (path', name) ∈ p.inputs →
      (name, loaded) ∈ p.units →
      probePath loaded.root name = absolute w.cwdPath path →
      probePath loaded.root name = absolute w.cwdPath path' → path = path' := by
    intro path path' name loaded hi hi' _ hpath hpath'
    exact List.inj_on_of_nodup_map (Compilation.selectInputs_nodup hsel)
      (List.mem_map_of_mem (f := Prod.fst) hi) (List.mem_map_of_mem (f := Prod.fst) hi')
      (hpath.symm.trans hpath')
  exact ⟨p, hp, hsel, fun path name hi => Compilation.plan_provenance hp hi, hone⟩

namespace Overlapping

/-- Two files of one name below two roots, one of which lies below the other. The file below the
inner root is asked for, and the outer root is given first. -/
def trial : Trial where
  tree := ⟨[([['x']], .directory), ([['x'], ['y']], .directory),
    ([['x'], "Foo.ice".toList], .file (encodeText [])),
    ([['x'], ['y'], "Foo.ice".toList], .file (encodeText "#pragma once".toList))]⟩
  files := ["x/y/Foo.ice".toList]
  roots := [['x'], "x/y".toList]

theorem ofArguments_eq : CommandLine.ofArguments trial.arguments = .ok trial.line :=
  rfl

def plan : Plan where
  inputs := [("x/y/Foo.ice".toList, "Foo".toList)]
  units := [("Foo".toList, ⟨"/x".toList, [], ⟨false, [], [], []⟩⟩)]
  artifacts :=
    [⟨"Foo".toList, ⟨['/'], ["compiled-slices".toList, "Foo.json".toList]⟩, Trial.emptyText⟩]

theorem plan_eq : (Compilation.plan trial.workspace trial.options).result = .ok plan := by
  have hclosure : (trial.loader.loadClosure ["Foo".toList]).1 = .loaded plan.units := by
    rw [Trial.loaded (n := 3) (by decide +kernel)]
    exact congrArg ClosureResult.loaded (by with_unfolding_all rfl)
  exact Compilation.plan_eq_ok.2
    ⟨["x/y/Foo.ice".toList], rfl, rfl, hclosure, by decide +kernel⟩

theorem exits_zero : trial.run.ending = .exit 0 :=
  Trial.exits_zero ofArguments_eq plan_eq (by decide)

end Overlapping

/-- A command can end with zero although an input was not compiled from itself. -/
theorem Command.not_always_itself :
    ¬ ∀ (s : Surroundings) (w : Workspace) (arguments : List Text) (c : CommandLine) (p : Plan),
      CommandLine.ofArguments arguments = .ok c →
      (run s w arguments).ending = .exit 0 →
      (Compilation.plan w (compileOptions s w c)).result = .ok p →
      ∀ path name loaded, (path, name) ∈ p.inputs → (name, loaded) ∈ p.units →
        probePath loaded.root name = absolute w.cwdPath path := by
  intro h
  have hsame := h _ _ _ _ _ Overlapping.ofArguments_eq Overlapping.exits_zero
    Overlapping.plan_eq _ _ _ List.mem_cons_self List.mem_cons_self
  revert hsame
  decide +kernel

/-- The outer root hides the file below the inner one. -/
theorem Command.exit_zero_provenance_overlapping :
    CommandLine.ofArguments Overlapping.trial.arguments = .ok Overlapping.trial.line ∧
    Overlapping.trial.run.ending = .exit 0 ∧
    ∃ own, LogicalName.MostSpecific "/x/y/Foo.ice".toList ["/x".toList, "/x/y".toList] own ∧
      ¬ Overlapping.trial.workspace.reader.FoundFirst ["/x".toList, "/x/y".toList] "Foo".toList
        own := by
  obtain ⟨p, hp, -, hall, -⟩ :=
    exit_zero_provenance Overlapping.ofArguments_eq Overlapping.exits_zero
  cases Overlapping.plan_eq.symm.trans hp
  have hmem : ("x/y/Foo.ice".toList, "Foo".toList) ∈ Overlapping.plan.inputs := List.mem_cons_self
  obtain ⟨own, loaded, hu, hprov⟩ := hall _ _ hmem
  have hloaded := (hu _).1 List.mem_cons_self
  have hroots : Overlapping.trial.options.absoluteRoots Overlapping.trial.workspace.cwdPath =
      ["/x".toList, "/x/y".toList] := by decide
  have hpath : absolute Overlapping.trial.workspace.cwdPath "x/y/Foo.ice".toList =
      "/x/y/Foo.ice".toList := by decide
  rw [Trial.options] at hroots
  rw [hroots, hpath] at hprov
  have hnot : ¬ Overlapping.trial.workspace.reader.FoundFirst ["/x".toList, "/x/y".toList]
      "Foo".toList own := by
    intro hf
    have hsame := hprov.itself.2 ⟨hf, fun hs => absurd hs.2 (by decide)⟩
    rw [← hloaded] at hsame
    revert hsame
    decide
  exact ⟨Overlapping.ofArguments_eq, Overlapping.exits_zero, own, hprov.below, hnot⟩

end SliceIdl
