import SliceIdl.Json.Basic
import SliceIdl.Report.Span

/-!
# Diagnostics

A problem as it is shown to a user: as lines of text or as a JSON object.
-/

set_option autoImplicit false

namespace SliceIdl

structure Diagnostic where
  message : Text
  code : Option Text := none
  phase : Option Text := none
  severity : Text := "error".toList
  span : Span := .nowhere
  notes : List Text := []
  deriving DecidableEq, Repr

namespace Diagnostic

def toText (d : Diagnostic) : Text :=
  d.span.toText ++ ": ".toList ++ d.severity ++ ": ".toList ++ d.message
    ++ d.notes.flatMap fun note => "\n  note: ".toList ++ note

def toJson (d : Diagnostic) : Json :=
  .object
    [("phase", .ofOption .text d.phase), ("code", .ofOption .text d.code),
      ("message", .text d.message), ("severity", .text d.severity),
      ("file", .ofOption .text d.span.file), ("line", .ofOption .int d.span.line),
      ("column", .ofOption .int d.span.column), ("notes", .arr (d.notes.map .text))]

end Diagnostic

end SliceIdl
