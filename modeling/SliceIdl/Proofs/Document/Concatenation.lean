import SliceIdl.Proofs.Document.RoundTrip
import SliceIdl.Proofs.Document.Relocation
import SliceIdl.Proofs.Source.Joining

/-!
# Texts one below the other

Two accepted texts with a line feed between them are accepted, and the document is made of both.
What the second one declares is found as many lines further down as the first one has.
-/

set_option autoImplicit false

namespace SliceIdl
open Text

variable {c : Char} {s t : Text} {pos : Position} {ts : List Token} {n : Nat}

def Position.down (n : Nat) (p : Position) : Position :=
  ⟨p.line + n, p.column⟩

theorem Position.next_down (p : Position) : (p.down n).next c = (p.next c).down n := by
  by_cases hc : c = '\n'
  · simp [next, down, hc, Nat.add_right_comm]
  · simp [next, down, hc]

theorem Position.after_down (p : Position) : (p.down n).after t = (p.after t).down n := by
  induction t generalizing p with
  | nil => rfl
  | cons c t ih => exact (congrArg (fun q => Position.after q t) p.next_down).trans (ih (p.next c))

theorem tokensFrom_down (ps : List Piece) :
    tokensFrom (pos.down n) ps = (tokensFrom pos ps).map (Token.relocate (Position.down n)) := by
  induction ps generalizing pos with
  | nil => rfl
  | cons p ps ih =>
    rw [tokensFrom, tokensFrom, Position.after_down, ih]
    cases p.kind <;> rfl

theorem CutsAt.down (h : CutsAt pos t ts) :
    CutsAt (pos.down n) t (ts.map (Token.relocate (Position.down n))) :=
  ⟨h.1, by rw [tokensFrom_down, h.2]⟩

theorem Position.line_after (p : Position) : (p.after t).line = p.line + t.count '\n' := by
  induction t generalizing p with
  | nil => rfl
  | cons c t ih =>
    show ((p.next c).after t).line = _
    by_cases hc : c = '\n'
    · simp [ih, next, hc, Nat.add_assoc, Nat.add_comm 1]
    · simp [ih, next, hc]

theorem Position.next_after (t : Text) :
    (start.after t).next '\n' = start.down (t.count '\n' + 1) := by
  simp [next, down, line_after, start, Nat.add_assoc]

/-- What is found in two texts with a line feed between them. -/
theorem Scan.ofText_append_line (hs : (ofText s).stop = none) (ht : (ofText t).stop = none) :
    (ofText (s ++ '\n' :: t)).stop = none ∧
      (ofText (s ++ '\n' :: t)).tokens = (ofText s).tokens ++
        (ofText t).tokens.map (Token.relocate (Position.down (s.count '\n' + 1))) := by
  have hrest : (pieces s).2 = [] := by simpa [ofText] using hs
  have hcovered := pieces_append s
  rw [hrest, List.append_nil] at hcovered
  have hbelow : CutsAt ((Position.start.after s).next '\n') t
      ((ofText t).tokens.map (Token.relocate (Position.down (s.count '\n' + 1)))) := by
    rw [Position.next_after]
    exact (scan_eq_iff.1 ⟨ht, rfl⟩).down
  have hcuts := cutsAt_coveredText (t := s) (headNot_cons.2 rfl)
    (hcovered.symm ▸ (cutsAt_space rfl).2 hbelow)
  rw [hcovered] at hcuts
  exact scan_eq_iff.2 hcuts

/-- Both documents as one. An include of the second one that the first one has adds nothing. -/
def Document.merge (d e : Document) : Document where
  pragmaOnce := d.pragmaOnce || e.pragmaOnce
  includes := d.includes ++ e.includes.filter fun n => n ∉ d.includes
  fileMetadata := d.fileMetadata ++ e.fileMetadata
  modules := d.modules ++ e.modules

namespace Grammar

theorem eraseDups_append_filter (ms ns : List Text) :
    (ms ++ ns).eraseDups = ms.eraseDups ++ ns.eraseDups.filter fun n => n ∉ ms.eraseDups := by
  rw [List.eraseDups_append, List.removeAll, eraseDups_filter]
  simp

theorem documentOf_append (es es' : List Entry) :
    documentOf (es ++ es') = (documentOf es).merge (documentOf es') := by
  simp [documentOf, Document.merge, eraseDups_append_filter]

theorem File.build_append {f g : File} {d e : Document} (hf : File.build f = .ok d)
    (hg : File.build g = .ok e) : File.build (f ++ g) = .ok (d.merge e) := by
  rw [File.build] at hf hg ⊢
  rw [List.mapM_append]
  cases hes : f.mapM TopItem.build with
  | error r =>
    rw [hes] at hf
    cases hf
  | ok es =>
    cases hes' : g.mapM TopItem.build with
    | error r =>
      rw [hes'] at hg
      cases hg
    | ok es' =>
      rw [hes] at hf
      rw [hes'] at hg
      cases hf
      cases hg
      exact congrArg Except.ok (documentOf_append es es')

end Grammar

open Grammar

/-- Two accepted texts with a line feed between them are accepted as the merge of their documents,
of which the second one is further down. -/
theorem Document.parse_append_line (s t : Text) (d e : Document) (hs : Document.parse s = .ok d)
    (ht : Document.parse t = .ok e) :
    Document.parse (s ++ '\n' :: t) =
      .ok (d.merge (e.relocate (Position.down (s.count '\n' + 1)))) := by
  obtain ⟨f, hf, hd⟩ := parse_eq_ok.1 hs
  obtain ⟨g, hg, he⟩ := parse_eq_ok.1 ht
  obtain ⟨hfstop, hftokens⟩ := parseFile_eq_ok.1 hf
  obtain ⟨hgstop, hgtokens⟩ := parseFile_eq_ok.1 hg
  obtain ⟨hstop, htokens⟩ := Scan.ofText_append_line hfstop hgstop
  refine parse_eq_ok.2 ⟨f ++ File.relocate (Position.down (s.count '\n' + 1)) g,
    parseFile_eq_ok.2 ⟨hstop, ?_⟩, File.build_append hd ?_⟩
  · rw [htokens, ← hftokens, ← hgtokens, ← File.tokens_relocate]
    exact List.flatMap_append
  · rw [File.build_relocate, he]
    rfl

/-- Both texts include the same file, and the second one starts on the third line. -/
theorem Document.parse_append_line_include : ∃ d e,
    Document.parse "#include \"a.ice\"\nmodule M{}".toList = .ok d ∧
    Document.parse "#include <b.ice>\n#include <a.ice> module N{};".toList = .ok e ∧
    Document.parse ("#include \"a.ice\"\nmodule M{}".toList ++
      '\n' :: "#include <b.ice>\n#include <a.ice> module N{};".toList) =
        .ok (d.merge (e.relocate (Position.down 2))) ∧
    d.includes = [['a']] ∧ e.includes = [['b'], ['a']] ∧
    (d.merge (e.relocate (Position.down 2))).includes = [['a'], ['b']] ∧
    (d.merge (e.relocate (Position.down 2))).modules.map Module.loc = [⟨2, 1⟩, ⟨4, 18⟩] := by
  have hs : (Document.parse "#include \"a.ice\"\nmodule M{}".toList).toOption.map (fun d =>
      (d.includes, d.modules.map Module.loc)) = some ([['a']], [⟨2, 1⟩]) := by
    decide +kernel
  have ht : (Document.parse "#include <b.ice>\n#include <a.ice> module N{};".toList).toOption.map
      (fun e => (e.includes, (e.relocate (Position.down 2)).modules.map Module.loc)) =
        some ([['b'], ['a']], [⟨4, 18⟩]) := by
    decide +kernel
  cases hd : Document.parse "#include \"a.ice\"\nmodule M{}".toList with
  | error r =>
    rw [hd] at hs
    cases hs
  | ok d =>
    cases he : Document.parse "#include <b.ice>\n#include <a.ice> module N{};".toList with
    | error r =>
      rw [he] at ht
      cases ht
    | ok e =>
      rw [hd] at hs
      rw [he] at ht
      obtain ⟨hdi, hdl⟩ := Prod.mk.inj (Option.some.inj hs)
      obtain ⟨hei, hel⟩ := Prod.mk.inj (Option.some.inj ht)
      refine ⟨d, e, rfl, rfl, parse_append_line _ _ d e hd he, hdi, hei, ?_, ?_⟩
      · show d.includes ++ e.includes.filter _ = _
        simp [hdi, hei]
      · show (d.modules ++ (e.relocate (Position.down 2)).modules).map Module.loc = _
        rw [List.map_append, hdl, hel]
        rfl

end SliceIdl
