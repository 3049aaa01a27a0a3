import Backtrack.Generate.Rule
import Backtrack.Output
import Backtrack.Parser.EntryPoint
import Backtrack.Parser.Section

/-!
# The files of a parser

All rules are compiled first, so that every constant and every user function is known. The
tables are laid out in sections ahead of the rules, and the entry points follow. When user code
is split off, each namespace has a file of its own and the sections that hold user code are left
out of the parser.
-/

namespace Backtrack

set_option autoImplicit false

/-- A grammar's rules compiled, with the tables they need. -/
structure Compiled where
  ruleNames : List String
  functions : List RuleFunction
  constants : ConstantPool
  user : UserTables

namespace Compiled

def sections (compiled : Compiled) : List Section := [
  { title := "INITIALIZERS", lines := compiled.user.initializers, holdsUserCode := true },
  { title := "PREDICATES FORWARD DECLARATIONS",
    lines := compiled.user.predicates.declarations none },
  { title := "ACTIONS FORWARD DECLARATIONS", lines := compiled.user.actions.declarations none },
  { title := "LITERALS", lines := compiled.constants.literalLines },
  { title := "CHAR CLASSES", lines := compiled.constants.classLines },
  { title := "EXPECTED DEFINITIONS", lines := compiled.constants.expectedLines },
  { title := "RULE FORWARD DECLARATIONS",
    lines := compiled.ruleNames.map fun name => RuleName.signature name ++ ";" },
  { title := "PREDICATES", lines := compiled.user.predicates.definitions none,
    holdsUserCode := true },
  { title := "ACTIONS", lines := compiled.user.actions.definitions none,
    holdsUserCode := true },
  { title := "RULES", lines := compiled.functions.map RuleFunction.text }]

/-- The parser, with all sections or with those that hold no user code. -/
def parserLines (compiled : Compiled) (config : Config) : List String :=
  let sections :=
    if config.splitNamespaces then compiled.sections.filter (! ·.holdsUserCode)
    else compiled.sections
  ["/*Parser*/", "#include \"" ++ config.runtimeHeader ++ "\"", ""] ++
    sections.flatMap Section.text ++ [Section.banner ""] ++
    (EntryPoint.parse compiled.ruleNames).toList ++ EntryPoint.wrappers

def parserFile (compiled : Compiled) (config : Config) : SourceFile :=
  ⟨none, "\n".intercalate (compiled.parserLines config)⟩

/-- The file of a namespace. -/
def spaceFile (compiled : Compiled) (config : Config) (space : String) : SourceFile :=
  ⟨some space, compiled.user.fileText space config.namespaceHeader⟩

def output (compiled : Compiled) (config : Config) : Output :=
  let spaces := if config.splitNamespaces then compiled.user.spaces.keys else []
  ⟨spaces.map (compiled.spaceFile config) ++ [compiled.parserFile config]⟩

end Compiled

namespace Grammar

/-- Compiles a grammar; the diagnostics are those raised up to the end or to the error. -/
def compile (policy : Policy) (grammar : Grammar) :
    Except GenerateError Compiled × List Diagnostic :=
  let (functions, session) :=
    (Session.ofInitializers grammar.initializers).compileRules policy grammar.rules
  (functions.map fun functions =>
    { ruleNames := grammar.rules.map Rule.name, functions, constants := session.constants,
      user := session.user },
    session.diagnostics)

/-- Generates the parser of a grammar. -/
def generate (config : Config) (policy : Policy) (grammar : Grammar) :
    Except GenerateError Output × List Diagnostic :=
  let (compiled, diagnostics) := grammar.compile policy
  (compiled.map (·.output config), diagnostics)

end Grammar

end Backtrack
