import SliceIdl.Proofs.Compile.Planning
import SliceIdl.Proofs.Load.Schedule

/-!
# Commands on small workspaces

A trial is a command that compiles files below given roots, seen from the top of a small file tree
and without the bundled definitions. Its closure is what a counted number of jobs come to.
-/

set_option autoImplicit false

namespace SliceIdl

structure Trial where
  tree : FileTree
  files : List Text
  roots : List Text
  outDir : OutDirChoice := .standard

namespace Trial

def surroundings : Surroundings := ⟨[], []⟩

variable (x : Trial)

def workspace : Workspace := ⟨x.tree, []⟩

def arguments : List Text :=
  let out := match x.outDir with
    | .path p => ["-o".toList, p]
    | .noPath | .standard => []
  x.files ++ "--root-dir".toList :: x.roots ++ "--no-builtin".toList :: out

def line : CommandLine where
  files := x.files
  roots := x.roots
  rootsGiven := true
  builtin := false
  outDir := x.outDir

def options : CompileOptions :=
  Command.compileOptions surroundings x.workspace x.line

def run : CommandResult :=
  Command.run surroundings x.workspace x.arguments

def loader : Loader Document :=
  Compilation.loader x.workspace (x.options.absoluteRoots x.workspace.cwdPath)

def state (n : Nat) (names : List Text) : Closure.State Document :=
  x.loader.runFor n (x.loader.start names)

variable {x} {n : Nat} {names : List Text}

theorem loaded (h : (x.state n names).queue = [] ∧ (x.state n names).cancelled = false ∧
    (x.state n names).failure? = none) :
    (x.loader.loadClosure names).1 = .loaded (x.state n names).units := by
  obtain ⟨hq, hc, hf⟩ := h
  rw [Loader.loadClosure_runFor hq hc]
  exact Closure.State.answer_loaded hf

theorem failed {f : LoadFailure} (h : (x.state n names).queue = [] ∧
    (x.state n names).cancelled = false ∧ (x.state n names).failure? = some f) :
    (x.loader.loadClosure names).1 = .failed f := by
  obtain ⟨hq, hc, hf⟩ := h
  rw [Loader.loadClosure_runFor hq hc]
  exact Closure.State.answer_failed hf

theorem exits_zero {p : Plan} (hc : CommandLine.ofArguments x.arguments = .ok x.line)
    (hp : (Compilation.plan x.workspace x.options).result = .ok p)
    (hw : (Compilation.emit x.workspace p.artifacts).result =
      .ok (p.artifacts.map fun a => (a.name, a.path))) : x.run.ending = .exit 0 :=
  (Command.exit_zero_iff hc).2 ⟨p, _, hp, hw⟩

def rendering (includes : Text) : Text :=
  "\x7b\n  \"pragmaOnce\": false,\n  \"includes\": [".toList ++ includes ++
    "],\n  \"fileMetadata\": [],\n  \"modules\": []\n\x7d".toList

def emptyText : Text :=
  rendering []

def textIncluding (name : Text) : Text :=
  rendering ("\n    \"".toList ++ name ++ "\"\n  ".toList)

end Trial

end SliceIdl
