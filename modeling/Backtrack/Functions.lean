import Backtrack.Interner
import Backtrack.OrderedMap
import Backtrack.Slots
import Backtrack.Grammar.Basic

/-!
# User functions

The predicates and actions of a grammar become functions of the generated parser. Two places
share a function exactly when they agree in namespace, parameters and body.
-/

namespace Backtrack

set_option autoImplicit false

structure UserFunction where
  space : String
  params : List String
  body : String
  deriving DecidableEq, Repr

/-- A call of a user function on result slots. -/
structure Call where
  index : Nat
  args : List Nat
  deriving DecidableEq, Repr

/-- The text of a call of a function whose name starts with `stem`. -/
def Call.text (stem : String) (call : Call) : String :=
  stem ++ toString call.index ++ "(ctx" ++
    String.join (call.args.map fun arg => ", " ++ (Slot.result arg).name) ++ ")"

/-- The functions of one sort, predicates or actions. -/
structure FunctionTable where
  stem : String
  returns : String
  functions : Interner UserFunction := {}
  deriving Repr

namespace FunctionTable

def predicates : FunctionTable := { stem := "is", returns := "int" }

def actions : FunctionTable := { stem := "f", returns := "void" }

/-- The number of a function, with the table that has it. -/
def add (table : FunctionTable) (function : UserFunction) : Nat × FunctionTable :=
  let (index, functions) := table.functions.intern function
  (index, { table with functions })

def size (table : FunctionTable) : Nat := table.functions.size

def signature (table : FunctionTable) (index : Nat) (function : UserFunction) : String :=
  table.returns ++ " " ++ table.stem ++ toString index ++ "(struct Context* context" ++
    String.join (function.params.map (", struct Result* " ++ ·)) ++ ")"

/-- The functions with their numbers, all of them or those of one namespace. -/
def select (table : FunctionTable) (space? : Option String) : List (UserFunction × Nat) :=
  table.functions.toList.zipIdx.filter fun (function, _) =>
    space?.all (function.space = ·)

def declarations (table : FunctionTable) (space? : Option String) : List String :=
  (table.select space?).map fun (function, index) => table.signature index function ++ ";"

def definitions (table : FunctionTable) (space? : Option String) : List String :=
  (table.select space?).map fun (function, index) =>
    table.signature index function ++ " \x7b" ++ function.body ++ "\x7d"

end FunctionTable

/-- The user code of a grammar. -/
structure UserTables where
  /-- The namespaces in the order in which they are first seen, with their initializers. -/
  spaces : OrderedMap String (Option String) := {}
  predicates : FunctionTable := .predicates
  actions : FunctionTable := .actions
  deriving Repr

namespace UserTables

/-- Sets the initializer of a namespace; a later one takes the place of an earlier one. -/
def addInitializer (tables : UserTables) (space code : String) : UserTables :=
  { tables with spaces := tables.spaces.insert space (some code) }

/-- Makes a namespace known. -/
def touch (tables : UserTables) (space : String) : UserTables :=
  { tables with spaces := tables.spaces.insertIfNew space none }

def addPredicate (tables : UserTables) (code : UserCode) (params : List String) :
    Nat × UserTables :=
  let (index, predicates) := tables.predicates.add ⟨code.space, params, code.body⟩
  (index, { tables.touch code.space with predicates })

def addAction (tables : UserTables) (code : UserCode) (params : List String) :
    Nat × UserTables :=
  let (index, actions) := tables.actions.add ⟨code.space, params, code.body⟩
  (index, { tables.touch code.space with actions })

def initializer? (tables : UserTables) (space : String) : Option String :=
  (tables.spaces.get? space).join

/-- The initializers of all namespaces. -/
def initializers (tables : UserTables) : List String := tables.spaces.values.filterMap id

/-- The lines of a file that holds everything of one namespace. -/
def fileLines (tables : UserTables) (space header : String) : List String :=
  ["/* Namespace: " ++ space ++ " */", "#include \"" ++ header ++ "\"", ""] ++
    (tables.initializer? space).toList ++
    tables.predicates.declarations (some space) ++
    tables.actions.declarations (some space) ++
    [""] ++
    tables.predicates.definitions (some space) ++
    tables.actions.definitions (some space)

def fileText (tables : UserTables) (space header : String) : String :=
  "\n".intercalate (tables.fileLines space header)

end UserTables

end Backtrack
