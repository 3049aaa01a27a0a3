/-!
# Generated files
-/

namespace Backtrack

set_option autoImplicit false

/-- One generated C file. -/
structure SourceFile where
  /-- The namespace of user code it holds; none for the parser itself. -/
  space : Option String
  code : String
  deriving DecidableEq, Repr

/-- Everything generated for a grammar: the files of namespaces, and the parser after them. -/
structure Output where
  files : List SourceFile
  deriving DecidableEq, Repr

namespace Output

/-- The code of the parser, which is the last file without a namespace. -/
def parser (output : Output) : String :=
  (output.files.reverse.find? fun file => file.space.isNone).elim "" SourceFile.code

/-- The code of a namespace that has its own file. -/
def space? (output : Output) (space : String) : Option String :=
  (output.files.find? fun file => file.space = some space).map SourceFile.code

/-- The namespaces that have their own files. -/
def spaces (output : Output) : List String := output.files.filterMap SourceFile.space

end Output

/-- How the output is laid out. -/
structure Config where
  /-- User code goes into one file for each namespace. -/
  splitNamespaces : Bool := false
  /-- The header that the parser includes. -/
  runtimeHeader : String := "peg-internal.h"
  /-- The header that the files of namespaces include. -/
  namespaceHeader : String := "peg.h"
  deriving DecidableEq, Repr

end Backtrack
