import Backtrack.Code.Basic
import Backtrack.Constants
import Backtrack.Diagnostic
import Backtrack.Scope

/-!
# The state of generation

The tables of a session live on from rule to rule, also when a rule fails; the two slot stacks
are those of one rule.
-/

namespace Backtrack

set_option autoImplicit false

/-- What happens to warnings. -/
inductive Policy where
  /-- The first warning stops generation. -/
  | strict
  /-- Warnings are collected. -/
  | collecting
  deriving DecidableEq, Repr

/-- What the rules of a grammar share. -/
structure Session where
  constants : ConstantPool := {}
  user : UserTables := {}
  diagnostics : List Diagnostic := []
  deriving Repr

/-- The state while a rule is generated. -/
structure Workspace extends Session where
  results : SlotStack := .results
  positions : SlotStack := .positions
  /-- Assertions about the slot stacks are on. -/
  checked : Bool := false
  deriving Repr

/-- What does not change while a rule is generated. -/
structure Context where
  policy : Policy
  /-- The region of the rule. -/
  region : Option Region
  deriving Repr

/-- A part of generation. What it did to the state stays done when it fails. -/
abbrev Gen := EStateM GenerateError Workspace

namespace Gen

variable {α : Type}

def ofExcept : Except StackError α → Gen α
  | .ok a => pure a
  | .error cause => throw (.internal cause)

/-- Asserts that as many slots are live as expected. -/
def assertLive (stack : Workspace → SlotStack) (expected : Nat) : Gen PUnit := do
  let w ← get
  if w.checked && (stack w).live != expected then
    throw (.internal ((stack w).mismatch expected))

/-- Makes the next result slot live. -/
def newResult : Gen Nat :=
  modifyGet fun w => let (slot, results) := w.results.alloc; (slot, { w with results })

def popResult : Gen Nat := do
  let (slot, results) ← ofExcept (← get).results.pop
  modify ({ · with results })
  return slot

def popResults (n : Nat) : Gen (List Nat) := do
  let (slots, results) ← ofExcept ((← get).results.popMany n)
  modify ({ · with results })
  return slots

/-- The topmost result slot, to be assigned anew. -/
def replaceResult : Gen Nat := do
  let (slot, results) ← ofExcept (← get).results.replace
  modify ({ · with results })
  return slot

def topResult : Gen Nat := do ofExcept ((← get).results.below 0)

def resultsFrom (slot : Nat) : Gen (List Nat) := do ofExcept ((← get).results.liveFrom slot)

/-- Makes the next position slot live. -/
def newPosition : Gen Nat :=
  modifyGet fun w => let (slot, positions) := w.positions.alloc; (slot, { w with positions })

/-- Releases a position slot, which is the one that was saved last. -/
def releasePosition (saved : Nat) : Gen PUnit := do
  let (_, positions) ← ofExcept (← get).positions.pop
  modify ({ · with positions })
  assertLive Workspace.positions saved

/-- A call for the code of an expression: in step with its scope, it leaves one more result. -/
def inStep (scope : Scope) (x : Gen α) : Gen α := do
  assertLive Workspace.results scope.slot
  let out ← x
  assertLive Workspace.results (scope.slot + 1)
  return out

def literal (bytes : Bytes) : Gen Nat :=
  modifyGet fun w =>
    let (index, constants) := w.constants.addLiteral bytes; (index, { w with constants })

def charClass (singles : Bytes) (ranges : List (UInt8 × UInt8)) : Gen Nat :=
  modifyGet fun w =>
    let (index, constants) := w.constants.addClass singles ranges; (index, { w with constants })

def expected (kind : ExpectedKind) (description : String) : Gen Nat :=
  modifyGet fun w =>
    let (index, constants) := w.constants.addExpected kind description
    (index, { w with constants })

/-- The call of a predicate on every label in sight. -/
def predicate (code : UserCode) (env : Env) : Gen Call :=
  modifyGet fun w =>
    let (index, user) := w.user.addPredicate code env.keys
    (⟨index, env.values⟩, { w with user })

/-- The call of an action on every label in sight. -/
def action (code : UserCode) (env : Env) : Gen Call :=
  modifyGet fun w =>
    let (index, user) := w.user.addAction code env.keys
    (⟨index, env.values⟩, { w with user })

/-- Warns about an expression; one without a region is placed at its rule. -/
def warn (cx : Context) (kind : DiagnosticKind) (region : Option Region) (value : String) :
    Gen PUnit :=
  let diagnostic : Diagnostic := ⟨kind, region.or cx.region, value⟩
  match cx.policy with
  | .strict => throw (.ofDiagnostic diagnostic)
  | .collecting => modify fun w => { w with diagnostics := w.diagnostics ++ [diagnostic] }

def warnIf (condition : Bool) (cx : Context) (kind : DiagnosticKind) (region : Option Region)
    (value : String) : Gen PUnit :=
  if condition then warn cx kind region value else pure ⟨⟩

end Gen

end Backtrack
