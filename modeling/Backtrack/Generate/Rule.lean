import Backtrack.Generate.Expr
import Backtrack.Code.Text

/-!
# Rule functions

A rule becomes one C function: the declarations of its locals, the code of its expression, and
the return of its result.
-/

namespace Backtrack

set_option autoImplicit false

/-- The function of a rule. -/
structure RuleFunction where
  name : String
  /-- The slots of match results, after the whole body. -/
  results : SlotStack
  /-- The slots of saved positions, after the whole body. -/
  positions : SlotStack
  body : Code
  /-- The slot whose value is returned. -/
  result : Nat
  deriving Repr

namespace RuleFunction

def lines (function : RuleFunction) : Lines :=
  Lines.empty
    |>.enter (RuleName.signature function.name ++ " \x7b")
    |>.extend function.results.declaration?.toList
    |>.extend function.positions.declaration?.toList
    |>.push ""
    |>.append ⟨1, function.body.lines 1⟩
    |>.push ("return " ++ (Slot.result function.result).name ++ ";")
    |>.leave "\x7d"

def text (function : RuleFunction) : String := function.lines.text

end RuleFunction

/-- The function of a rule, in a workspace whose stacks are empty. -/
def Rule.generate (policy : Policy) (rule : Rule) : Gen RuleFunction := do
  let (body, _) ← rule.expression.generate ⟨policy, rule.region⟩ Scope.root
  let result ← Gen.popResult
  Gen.assertLive Workspace.results 0
  Gen.assertLive Workspace.positions 0
  let w ← get
  return { name := rule.name, results := w.results, positions := w.positions, body, result }

namespace Session

def addInitializer (session : Session) (space code : String) : Session :=
  { session with user := session.user.addInitializer space code }

/-- Compiles one more rule. What a failing rule added to the tables stays there. -/
def compileRule (policy : Policy) (session : Session) (rule : Rule) :
    Except GenerateError RuleFunction × Session :=
  match rule.generate policy |>.run { toSession := session } with
  | .ok function w => (.ok function, w.toSession)
  | .error error w => (.error error, w.toSession)

/-- Compiles rules in order, up to the first that fails. -/
def compileRules (policy : Policy) (session : Session) :
    List Rule → Except GenerateError (List RuleFunction) × Session
  | [] => (.ok [], session)
  | rule :: rest =>
    match session.compileRule policy rule with
    | (.error error, session) => (.error error, session)
    | (.ok function, session) =>
      match session.compileRules policy rest with
      | (.error error, session) => (.error error, session)
      | (.ok functions, session) => (.ok (function :: functions), session)

/-- A session that knows the initializers of a grammar. -/
def ofInitializers (initializers : List UserCode) : Session :=
  initializers.foldl (fun session code => session.addInitializer code.space code.body) {}

end Session

end Backtrack
