import Backtrack.Generate.Basic
import Backtrack.Grammar.ClassBytes

/-!
# Code of expressions

The code of an expression leaves exactly one more live result slot, the slot of its scope, and
no more live position slot. It holds the failure value exactly when the expression does not
match, and then the input is back where it was.
-/

namespace Backtrack

set_option autoImplicit false

namespace Expr

def isSequence : Expr → Bool
  | .sequence .. => true
  | _ => false

end Expr

namespace Generate

open Code Gen

def literal (cx : Context) (region : Option Region) (value : String) (ignoreCase : Bool) :
    Gen Code := do
  warnIf ignoreCase cx .caseInsensitive region value
  warnIf (! value.toList.all Bytes.isNarrow) cx .nonByteCharacter region value
  let constant ← Gen.literal (Bytes.ofString value)
  let description := "\"" ++ CString.escapeString value ++ "\"" ++ if ignoreCase then "i" else ""
  let expected ← Gen.expected .literal description
  return instr (.assign (← newResult) (.literal constant expected))

def charClass (cx : Context) (region : Option Region) (cls : CharClass) : Gen Code := do
  warnIf cls.ignoreCase cx .caseInsensitive region cls.rawText
  warnIf cls.isWide cx .nonByteCharacter region cls.rawText
  let constant ← Gen.charClass cls.byteSingles cls.byteRanges
  let expected ← Gen.expected .charClass cls.rawText
  return instr (.assign (← newResult) (.charClass constant expected cls.inverted))

/-- Asks user code, which sees every label in sight. -/
def predicate (negated : Bool) (code : UserCode) (env : Env) : Gen Code := do
  let call ← Gen.predicate code env
  let matched := Instruction.assign (← newResult) .noMatch
  let failed := Instruction.assign (← replaceResult) .failed
  return if negated then branch (.holds call) [failed] [matched]
    else branch (.holds call) [matched] [failed]

/-- Failures inside are silent; the expression fails as a whole, under its name. -/
def named (name : String) (inner : Gen (Code × Env)) : Gen (Code × Env) := do
  let expected ← Gen.expected .other name
  let (code, env) ← inner
  let slot ← topResult
  let assign := Instruction.assign (← replaceResult) (.failure expected)
  return (all [instr .mute, code, instr .unmute, branch (.failed slot) [assign] []], env)

/-- Puts the input text in the place of a match. -/
def text (inner : Gen Code) : Gen Code := do
  let start ← newPosition
  let code ← inner
  releasePosition start
  let slot ← topResult
  let assign := Instruction.assign (← replaceResult) (.matchedText start)
  return all [instr (.save start), code, branch (.matched slot) [.free slot, assign] []]

/-- Calls user code after a match, whose value stays. -/
def action (code : UserCode) (inner : Gen (Code × Env)) : Gen Code := do
  let start ← newPosition
  let (body, env) ← inner
  let call ← Gen.action code env
  let slot ← topResult
  releasePosition start
  return all [instr (.save start), body, branch (.matched slot) [.act call] []]

/-- Makes a failure a match without a result. -/
def optional (inner : Gen Code) : Gen Code := do
  let code ← inner
  let slot ← topResult
  let assign := Instruction.assign (← replaceResult) .noMatch
  return all [code, guard (.failed slot) assign]

/-- Matches silently and always goes back. -/
def lookahead (negated : Bool) (inner : Gen Code) : Gen Code := do
  let start ← newPosition
  let code ← inner
  releasePosition start
  let slot ← topResult
  let matched := Instruction.assign (← replaceResult) .noMatch
  let silent := all [instr (.save start), instr .mute, code, instr .unmute]
  if negated then
    let failed := Instruction.assign (← replaceResult) .failed
    return silent ++ branch (.failed slot) [.rewind start, matched]
      [.free slot, .rewind start, failed]
  else
    return silent ++ branch (.matched slot) [.free slot, .rewind start, matched] []

/-- The check after a repetition that has a lower bound: too few matches are none. -/
def enough (min : UInt32) (array : Nat) (start : Nat) : Gen Code := do
  releasePosition start
  let failed := Instruction.assign (← replaceResult) .failed
  return branch (.short array min) [.rewind start, .free array, failed] []

/-- Gathers matches in an array until one fails or there are as many as may be. -/
def repeated (quantifier : Quantifier) (inner : Gen Code) : Gen Code := do
  let start? ← if 0 < quantifier.least then some <$> newPosition else pure none
  let assign := Instruction.assign (← newResult) .emptyArray
  let array ← topResult
  let code ← inner
  let item ← popResult
  let body := all [
    match quantifier.most with
      | some max => guard (.full array max) .leave
      | none => skip,
    code,
    guard (.failed item) .leave,
    instr (.append array item)]
  let gather := all [instr assign, loop .repetition body]
  match start? with
  | some start => return instr (.save start) ++ gather ++ (← enough quantifier.least array start)
  | none => return gather

/-- The check after one element of a sequence: a failure frees the elements before it. -/
def element (number : Nat) (slot start : Nat) (inner : Gen (Code × Env)) : Gen (Code × Env) := do
  let (code, env) ← inner
  let failed ← topResult
  let done ← resultsFrom slot
  let undo := done.reverse.tail.map Instruction.free ++
    [.rewind start, .assign slot .failed, .leave]
  return (all [remark (.element number), code, branch (.failed failed) undo [], blank], env)

/-- All elements, which leave their results in a row, and then the value of the whole. -/
def sequence (scope : Scope) (count : Nat) (elements : Nat → Gen (Code × Env)) :
    Gen (Code × Env) := do
  let start ← newPosition
  let (code, env) ← elements start
  let values ← popResults count
  releasePosition start
  let call ← match scope.action with
    | some action => (instr <| .act ·) <$> Gen.action action env
    | none => pure skip
  let assign := Instruction.assign (← newResult) (.wrapped start values)
  return (instr (.save start) ++ loop .sequence (all [code, call, instr assign]), env)

/-- An alternative that others follow. -/
def alternative (number : Nat) (inner : Gen Code) : Gen Code := do
  let code ← inner
  let slot ← popResult
  return all [remark (.alternative number), code, guard (.matched slot) .leave, blank]

end Generate

open Generate Gen Code

mutual

/-- The code of an expression, and the labels in sight after it. -/
def Expr.generate (cx : Context) (scope : Scope) (e : Expr) : Gen (Code × Env) :=
  inStep scope <| match e with
  | .named _ name inner => Generate.named name (inner.generate cx scope)
  | .choice _ [] => do
    return (instr (.assign (← newResult) .failed), scope.env)
  | .choice _ alternatives => do
    return (loop .choice (← Expr.generateAlternatives cx scope 1 alternatives), scope.env)
  | .sequence _ elements =>
    Generate.sequence scope elements.length fun start =>
      Expr.generateElements cx scope.slot start 0 scope.env elements
  | .labeled _ label inner => do
    let bound := scope.bind label
    let (code, _) ← inner.generate cx (bound.branch bound.slot)
    return (code, bound.env)
  | .text _ inner => do
    return (← Generate.text (Prod.fst <$> inner.generate cx (scope.branch scope.slot)), scope.env)
  | .optional _ inner => do
    return (← Generate.optional (Prod.fst <$> inner.generate cx (scope.branch scope.slot)),
      scope.env)
  | .repeated _ quantifier inner => do
    return (← Generate.repeated quantifier
      (Prod.fst <$> inner.generate cx (scope.branch (scope.slot + 1))), scope.env)
  | .lookahead _ negated inner => do
    return (← Generate.lookahead negated
      (Prod.fst <$> inner.generate cx (scope.branch scope.slot)), scope.env)
  | .predicate _ negated code => do
    return (← Generate.predicate negated code scope.env, scope.env)
  | .action _ code inner => do
    if inner.isSequence then
      return (← Prod.fst <$> inner.generate cx (scope.withAction code), scope.env)
    else
      return (← Generate.action code (inner.generate cx (scope.branch scope.slot)), scope.env)
  | .ruleRef _ name => do
    return (instr (.assign (← newResult) (.rule name)), scope.env)
  | .literal region value ignoreCase => do
    return (← Generate.literal cx region value ignoreCase, scope.env)
  | .charClass region cls => do
    return (← Generate.charClass cx region cls, scope.env)
  | .any _ => do
    return (instr (.assign (← newResult) .anyByte), scope.env)

/-- The elements of a sequence after the first `done`, each in the slot after the one before
and with the labels of those before in sight. -/
def Expr.generateElements (cx : Context) (slot start done : Nat) (env : Env) :
    List Expr → Gen (Code × Env)
  | [] => pure (skip, env)
  | first :: rest => do
    let (code, env) ← Generate.element (done + 1) slot start
      (first.generate cx ⟨slot + done, env, none⟩)
    let (more, env) ← Expr.generateElements cx slot start (done + 1) env rest
    return (code ++ more, env)

/-- The alternatives of a choice, numbered from `number` on; all share one slot. -/
def Expr.generateAlternatives (cx : Context) (scope : Scope) (number : Nat) : List Expr → Gen Code
  | [] => pure skip
  | [last] => do
    let (code, _) ← last.generate cx (scope.branch scope.slot)
    return all [remark (.alternative number), code]
  | first :: second :: rest => do
    let code ← Generate.alternative number
      (Prod.fst <$> first.generate cx (scope.branch scope.slot))
    return code ++ (← Expr.generateAlternatives cx scope (number + 1) (second :: rest))

end

end Backtrack
