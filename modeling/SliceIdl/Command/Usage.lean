import SliceIdl.Command.CommandLine
import SliceIdl.Report.Log

/-!
# Usage texts

What a command prints about itself instead of doing its work.
-/

set_option autoImplicit false

namespace SliceIdl.Usage

def programName : Text :=
  Record.packageName

def versionNumber : Text :=
  "0.1.0".toList

def ofLines (lines : List String) : Text :=
  lines.flatMap fun line => line.toList ++ ['\n']

def synopsis : Text :=
  ofLines
    ["usage: slicejson [-h] --root-dir ROOT_DIRS [ROOT_DIRS ...]",
      "                 [-e EXCLUDES [EXCLUDES ...]] [-o OUT_DIR] [--no-builtin]",
      "                 [--json] [-v] [-q] [--version]",
      "                 files [files ...]"]

def explanation : Text :=
  ofLines
    ["",
      "Slice language to AST JSON compiler",
      "",
      "positional arguments:",
      "  files                 Slice files or glob patterns (`**` allowed)",
      "",
      "options:",
      "  -h, --help            show this help message and exit",
      "  --root-dir ROOT_DIRS [ROOT_DIRS ...]",
      "                        Root dirs (repeatable). Output files mirror the source",
      "                        layout relative to these dirs; includes are also",
      "                        resolved in them, in the given order",
      "  -e EXCLUDES [EXCLUDES ...], --exclude EXCLUDES [EXCLUDES ...]",
      "                        File paths or globs to exclude",
      "  -o OUT_DIR, --out-dir OUT_DIR",
      "                        Directory where to put generated files (default:",
      "                        ./compiled-slices)",
      "  --no-builtin          Do not append the built-in Ice slice directory to the",
      "                        root dirs",
      "  --json                Emit diagnostics as JSON",
      "                        (phase/message/severity/file/line/column)",
      "  -v, --verbose         More logging (-vv for debug)",
      "  -q, --quiet           Only log errors",
      "  --version             show program's version number and exit"]

def help : Text :=
  synopsis ++ explanation

def versionLine : Text :=
  programName ++ ' ' :: versionNumber ++ ['\n']

def errorText (e : UsageError) : Text :=
  synopsis ++ programName ++ ": error: ".toList ++ e.message ++ ['\n']

end SliceIdl.Usage
