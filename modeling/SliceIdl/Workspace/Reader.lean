import SliceIdl.Load.Reader
import SliceIdl.Workspace.Tree

/-!
# Reading source files of a workspace

A file is text when its bytes are UTF-8; line ends and a byte order mark are kept as they are.
-/

set_option autoImplicit false

namespace SliceIdl

def decodeText? (bytes : ByteArray) : Option Text :=
  (String.fromUTF8? bytes).map String.toList

def encodeText (t : Text) : ByteArray :=
  (String.ofList t).toUTF8

def FileError.outcome : FileError → ReadOutcome
  | notFound => .unreadable .notFound
  | notDirectory => .unreadable .notDirectory
  | isDirectory => .unreadable .isDirectory
  | nameTooLong => .unreadable .nameTooLong
  | e => .broken (.ofValue e.message)

theorem FileError.outcome_ne_text (e : FileError) (t : Text) : e.outcome ≠ .text t := by
  cases e <;> simp [outcome]

namespace Workspace

def readText (w : Workspace) (path : Text) : ReadOutcome :=
  match w.read path with
  | .error e => e.outcome
  | .ok bytes =>
    match decodeText? bytes with
    | some t => .text t
    | none => .unreadable .notText

theorem exists_entry_of_read {w : Workspace} {path : Text} {bytes : ByteArray}
    (h : w.read path = .ok bytes) : ∃ p, (p, Entry.file bytes) ∈ w.tree.entries := by
  rw [read] at h
  cases hl : w.locate path with
  | error e => simp [hl, bind, Except.bind] at h
  | ok p =>
    simp only [hl, bind, Except.bind] at h
    split at h
    · next bytes' hf =>
      simp only [Except.ok.injEq] at h
      subst h
      rw [FileTree.find?] at hf
      split at hf
      · simp at hf
      · obtain ⟨before, after, he, -⟩ := List.lookup_eq_some_iff.1 hf
        exact ⟨p, by rw [he]; simp⟩
    · simp at h
    · simp at h

def fileText? (x : Place × Entry) : Option Text :=
  match x.2 with
  | .file bytes => decodeText? bytes
  | .directory => none

def reader (w : Workspace) : Reader where
  read := w.readText
  finite := by
    refine ⟨w.tree.entries.filterMap fileText?, ?_⟩
    intro path t h
    rw [readText] at h
    split at h
    · next e _ => exact absurd h (e.outcome_ne_text t)
    · next bytes hr =>
      split at h
      · next t' hd =>
        simp only [ReadOutcome.text.injEq] at h
        obtain ⟨p, hp⟩ := exists_entry_of_read hr
        exact List.mem_filterMap.2 ⟨(p, .file bytes), hp, by simp [fileText?, hd, h]⟩
      · simp at h

end Workspace

end SliceIdl
