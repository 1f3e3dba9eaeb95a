import SliceIdl.Proofs.Document.Literals
import SliceIdl.Proofs.Load.Lookup
import SliceIdl.Proofs.Load.Noninterference
import SliceIdl.Proofs.Load.Sources
import SliceIdl.Proofs.Path.Resolution

/-!
# Where names are looked for

Looking a name up puts its segments together one by one, and drops every slash that would make the
path start anew or stand twice. So the path that is looked at below a root is always the root, a
slash and the rest, however the name is spelled; an include that looks like an absolute path is
looked for below the roots like any other.
-/

set_option autoImplicit false

namespace SliceIdl

namespace Path

variable {p : Text}

theorem IsRelative.not_slash_start (h : IsRelative p) : ¬ ['/'] <+: p := by
  rintro ⟨rest, rfl⟩
  exact not_isRelative_slash h

theorem IsRelative.not_slash_run (h : IsRelative p) : ¬ ['/', '/'] <:+: p := by
  rintro ⟨before, after, rfl⟩
  have hsplit : before ++ ['/', '/'] ++ after = before ++ '/' :: '/' :: after := by simp
  rw [hsplit] at h
  exact not_isRelative_slash h.after_slash

end Path

namespace LogicalName
open SliceIdl.Path

theorem isRelative_relativePath (name : Text) : IsRelative (relativePath name) :=
  (isRelative_append_iff sourceExtension_slashFree _).2
    (isRelative_joinAll fun _ hs => slashFree_of_mem_segments hs)

theorem relativePath_slashes (n : Nat) (name : Text) :
    relativePath (List.replicate n '/' ++ name) = relativePath name := by
  induction n with
  | zero => rfl
  | succ n ih => rw [List.replicate_succ, List.cons_append, relativePath_slash, ih]

end LogicalName

theorem includeName?_append_extension {stem : Text} (h : stem ≠ []) :
    Grammar.includeName? (stem ++ sourceExtension) = some (stem.map slashed) := by
  rw [Grammar.includeName?, stem?_eq_some_iff.2 ⟨h, rfl⟩]
  rfl

theorem probePath_lead {lead : Text} (h : ∀ c ∈ lead, c = '/' ∨ c = '\\') (root stem : Text) :
    probePath root ((lead ++ stem).map slashed) = probePath root (stem.map slashed) := by
  have hlead : lead.map slashed = List.replicate lead.length '/' := by
    refine List.eq_replicate_iff.2 ⟨List.length_map _, ?_⟩
    intro c hc
    obtain ⟨d, hd, rfl⟩ := List.mem_map.1 hc
    rcases h d hd with rfl | rfl <;> rfl
  rw [List.map_append, hlead, probePath, probePath, LogicalName.relativePath_slashes]

variable {Doc : Type}

theorem Reader.searched_prefix (reader : Reader) (name : Text) (roots : List Text) :
    reader.searched name roots <+: roots := by
  rw [searched]
  cases reader.decider? name roots with
  | none => exact List.prefix_rfl
  | some k => exact List.take_prefix (k + 1) roots

namespace Loader

variable (l : Loader Doc)

theorem exists_probe_of_read (names : List Text) {path : Text}
    (h : path ∈ readPaths (l.loadClosure names).2) :
    ∃ name ∈ (l.run (l.start names)).registered, ∃ root ∈ l.roots, path = probePath root name := by
  rw [loadClosure_readPaths] at h
  obtain ⟨⟨path, outcome⟩, hread, rfl⟩ := List.mem_map.1 h
  obtain ⟨e, he, hsome⟩ := List.mem_filterMap.1 hread
  obtain ⟨b, hs, ht, hreg, hev⟩ := l.reaches_traced (l.run_ends names).1
  obtain ⟨parts, hparts, hleft⟩ := ht.interleaves hs
  have hload : e.ofLoad = true := by
    cases e with
    | read => rfl
    | _ => cases hsome
  obtain ⟨name, hname, hpart⟩ := hparts.mem (List.mem_filter.2 ⟨hev ▸ he, hload⟩)
  have htrace : (path, outcome) ∈ (l.trace name).filterMap LoadEvent.read? :=
    List.mem_filterMap.2 ⟨e, (hleft name hname).subset hpart, hsome⟩
  rw [trace, loadUnit_reads] at htrace
  obtain ⟨root, hroot, hpath, -⟩ := mem_probes htrace
  exact ⟨name, hreg ▸ hname, root, hroot, hpath⟩

open LogicalName

/-- No name leads to a path that starts with a slash or has two in a row, and the path that is looked
at below a root is the root, a slash unless it ends in one, and the path of the name. Slashes and
backslashes in front of the target of an include make no difference to where it is looked for. So
the reads for a name are below the roots, one after the other, and so is every read of a run. -/
theorem probes_below_roots :
    (∀ name, ¬ ['/'] <+: relativePath name ∧ ¬ ['/', '/'] <:+: relativePath name) ∧
    (∀ root name, root ≠ [] → probePath root name = rootPrefix root ++ relativePath name) ∧
    (∀ lead stem : Text, (∀ c ∈ lead, c = '/' ∨ c = '\\') → lead ++ stem ≠ [] →
      ∃ name, Grammar.includeName? (lead ++ stem ++ sourceExtension) = some name ∧
        ∀ root, probePath root name = probePath root (stem.map slashed)) ∧
    ∀ {Doc : Type} (l : Loader Doc), [] ∉ l.roots →
      (∀ name origin, readPaths (loadUnit l.reader l.language name origin l.roots).1 =
        (l.reader.searched name l.roots).map (rootPrefix · ++ relativePath name)) ∧
      ∀ names, ∀ path ∈ readPaths (l.loadClosure names).2,
        ∃ name ∈ (l.run (l.start names)).registered, ∃ root ∈ l.roots,
          path = rootPrefix root ++ relativePath name := by
  refine ⟨fun name => ?_, fun root name hr => probePath_eq hr name, ?_, fun l hroots => ⟨?_, ?_⟩⟩
  · have hrelative := isRelative_relativePath name
    exact ⟨hrelative.not_slash_start, hrelative.not_slash_run⟩
  · intro lead stem hlead hne
    exact ⟨_, includeName?_append_extension hne, fun root => probePath_lead hlead root stem⟩
  · intro name origin
    rw [readPaths, loadUnit_events, loadUnit_reads, Reader.probes_eq, List.map_map]
    refine List.map_congr_left fun root hr => probePath_eq ?_ name
    rintro rfl
    exact hroots ((l.reader.searched_prefix name l.roots).subset hr)
  · intro names path hp
    obtain ⟨name, hname, root, hr, rfl⟩ := l.exists_probe_of_read names hp
    exact ⟨name, hname, root, hr, probePath_eq (fun h => hroots (h ▸ hr)) name⟩

/-- Below the second of two roots is a file that includes another one by what looks like an absolute
path. There is a file at that path. -/
def outward : Loader Document where
  reader := .ofFiles
    [("r/A.ice".toList, .text "#include </etc/x.ice>".toList), ("/etc/x.ice".toList, .text [])]
  language := Document.language
  roots := ["q/".toList, ['r']]

theorem probes_below_roots_outward :
    (∃ name, Grammar.includeName? "\\\\etc\\x.ice".toList = some name ∧
      probePath ['r'] name = "r/etc/x.ice".toList) ∧
    [] ∉ outward.roots ∧
    readPaths (loadUnit outward.reader outward.language "/etc/x".toList none outward.roots).1 =
      ["q/etc/x.ice".toList, "r/etc/x.ice".toList] ∧
    readPaths (outward.loadClosure [['A']]).2 =
      ["q/A.ice".toList, "r/A.ice".toList, "q/etc/x.ice".toList, "r/etc/x.ice".toList] ∧
    ∃ root ∈ outward.roots, ∃ name, "r/etc/x.ice".toList = rootPrefix root ++ relativePath name := by
  obtain ⟨-, hprobe, hinclude, hload⟩ := probes_below_roots
  obtain ⟨hreads, hruns⟩ := hload outward (by decide)
  obtain ⟨name, hname, hpath⟩ := hinclude ['\\', '\\'] "etc\\x".toList (by simp) (by simp)
  have hrun : outward.run (outward.start [['A']]) =
      outward.runFor 12 (outward.start [['A']]) := outward.run_eq_runFor (by decide +kernel)
  have hall : readPaths (outward.loadClosure [['A']]).2 =
      ["q/A.ice".toList, "r/A.ice".toList, "q/etc/x.ice".toList, "r/etc/x.ice".toList] := by
    rw [loadClosure_readPaths, hrun]
    decide +kernel
  obtain ⟨name', -, root, hroot, hbelow⟩ :=
    hruns [['A']] "r/etc/x.ice".toList (by rw [hall]; decide)
  exact ⟨⟨name, hname, (hpath ['r']).trans (hprobe _ _ (by decide))⟩, by decide,
    (hreads "/etc/x".toList none).trans (by decide), hall, root, hroot, name', hbelow⟩

end Loader

end SliceIdl
