import SliceIdl.Command.Usage
import SliceIdl.Compile.Compilation
import SliceIdl.Json.Printer

/-!
# Running a command

A command is its arguments. It ends with an exit code: zero after a compilation, one if an error was
reported, two if the arguments were refused. Log records and diagnostics go to the error output;
with JSON asked for, the report goes to the output instead.
-/

set_option autoImplicit false

namespace SliceIdl

structure Surroundings where
  environment : List (Text × Text)
  bundledDir : Text

namespace Surroundings

def builtinVariable : Text :=
  "SLICEJSON_BUILTIN_DIR".toList

/-- The directory of the standard definitions; a variable that is not empty names another one. -/
def builtinDir (s : Surroundings) (cwd : Text) : Text :=
  match s.environment.lookup builtinVariable with
  | none | some [] => s.bundledDir
  | some path => Path.absolute cwd path

end Surroundings

inductive CommandEnd where
  | exit (code : Nat)
  /-- A failure that is not reported as a diagnostic. -/
  | crash (f : Fault)
  deriving DecidableEq, Repr

structure CommandResult where
  ending : CommandEnd
  output : Text
  errors : Text
  workspace : Workspace

namespace Command

def defaultOutDir : Text :=
  "compiled-slices".toList

def compileOptions (s : Surroundings) (w : Workspace) (c : CommandLine) : CompileOptions where
  inputs := c.files
  excludes := c.excludes
  roots := c.roots
  builtinDir := if c.builtin then some (s.builtinDir w.cwdPath) else none
  outDir :=
    match c.outDir with
    | .path p => some (.ofText p)
    | .noPath => none
    | .standard => some ((PathParts.ofText w.cwdPath).extend [defaultOutDir])

def logText (verbosity : Int) (records : List Record) : Text :=
  (records.foldl Logger.log (Logger.fresh.configure verbosity)).streams.flatten

def writeDiagnostic (e : WriteError) : Diagnostic where
  message := "failed to write output: ".toList ++ e.cause.message
  phase := some "emit".toList
  span := ⟨some e.path, none, none⟩

def failureJson (d : Diagnostic) : Json :=
  .object [("exit_code", .int 1), ("diagnostics", .arr [d.toJson])]

def successJson (outputs : List (Text × PathParts)) : Json :=
  let members := outputs.map fun o => (Text.codePoints o.1, Json.text o.2.toText)
  .object [("exit_code", .int 0), ("diagnostics", .arr []), ("outputs", .obj members)]

def line (v : Json) : Text :=
  v.compact ++ ['\n']

def reported (json : Bool) (log : Text) (w : Workspace) (d : Diagnostic) : CommandResult :=
  if json then ⟨.exit 1, line (failureJson d), log, w⟩
  else ⟨.exit 1, [], log ++ d.toText ++ ['\n'], w⟩

def report (c : CommandLine) (compiled : Compilation) : CommandResult :=
  let log := logText c.verbosity compiled.records
  match compiled.result with
  | .ok outputs =>
    ⟨.exit 0, if c.json then line (successJson outputs) else [], log, compiled.workspace⟩
  | .error (.load e) => reported c.json log compiled.workspace e.diagnostic
  | .error (.write e) => reported c.json log compiled.workspace (writeDiagnostic e)
  | .error (.fault f) => ⟨.crash f, [], log, compiled.workspace⟩

def run (s : Surroundings) (w : Workspace) (arguments : List Text) : CommandResult :=
  match CommandLine.ofArguments arguments with
  | .error .help => ⟨.exit 0, Usage.help, [], w⟩
  | .error .version => ⟨.exit 0, Usage.versionLine, [], w⟩
  | .error (.usage e) => ⟨.exit 2, [], Usage.errorText e, w⟩
  | .ok c => report c (Compilation.run w (compileOptions s w c))

end Command

end SliceIdl
