import Backtrack.Grammar.Basic
import Backtrack.Slots
import Backtrack.Json.Printer

/-!
# Warnings and errors of generation
-/

namespace Backtrack

set_option autoImplicit false

/-- What the generator accepts but cannot express in bytes. -/
inductive DiagnosticKind where
  /-- A literal or a class that ignores case. -/
  | caseInsensitive
  /-- A character above U+00FF in a literal or a class. -/
  | nonByteCharacter
  deriving DecidableEq, Repr

def DiagnosticKind.message : DiagnosticKind → String
  | .caseInsensitive => "Case insensitive matching not supported"
  | .nonByteCharacter => "Unicode symbols not supported"

/-- A warning about one literal or class. -/
structure Diagnostic where
  kind : DiagnosticKind
  region : Option Region
  /-- The literal's value or the class's text. -/
  value : String
  deriving DecidableEq, Repr

/-- The warning with the place it is about, when that is known. -/
def Diagnostic.message (diagnostic : Diagnostic) : String :=
  let place := match diagnostic.region with
    | some region =>
      "line " ++ toString region.start.line ++ ", column " ++ toString region.start.column ++ ": "
    | none => ""
  place ++ diagnostic.kind.message

namespace Diagnostics

def count (kind : DiagnosticKind) (diagnostics : List Diagnostic) : Nat :=
  (diagnostics.filter fun diagnostic => diagnostic.kind = kind).length

/-- One message to a line. -/
def render (diagnostics : List Diagnostic) : String :=
  "\n".intercalate (diagnostics.map Diagnostic.message)

end Diagnostics

/-- Why generation stops. -/
inductive GenerateError where
  /-- A warning that nobody collects, with the quoted value it is about. -/
  | rejected (message value : String)
  /-- A slot stack was used against its rules. -/
  | internal (cause : StackError)
  deriving DecidableEq, Repr

namespace GenerateError

def ofDiagnostic (diagnostic : Diagnostic) : GenerateError :=
  .rejected diagnostic.message (Json.quote diagnostic.value)

def message : GenerateError → String
  | .rejected message value => message ++ ": " ++ value
  | .internal cause => "internal error: " ++ cause.message

end GenerateError

end Backtrack
