import Backtrack.OrderedMap
import Backtrack.Grammar.Basic

/-!
# Scopes

Where the result of an expression goes, and which labels its user code sees.
-/

namespace Backtrack

set_option autoImplicit false

/-- Labels with the result slots they stand for, in the order in which they were bound. -/
abbrev Env := OrderedMap String Nat

structure Scope where
  /-- The result slot of the expression; the slots below it are live. -/
  slot : Nat
  env : Env
  /-- The action that a sequence has to call before it ends. -/
  action : Option UserCode
  deriving Repr

namespace Scope

/-- The scope of a rule's expression. -/
def root : Scope := ⟨0, {}, none⟩

/-- The topmost live result slot on entry, minus one when there is none. -/
def top (scope : Scope) : Int := (scope.slot : Int) - 1

/-- A scope of its own for an expression inside: what is bound there stays there. -/
def branch (scope : Scope) (slot : Nat) : Scope := ⟨slot, scope.env, none⟩

/-- The scope of a sequence inside an action. -/
def withAction (scope : Scope) (action : UserCode) : Scope := { scope with action := some action }

/-- Lets a label stand for this scope's result. -/
def bind (scope : Scope) (label : String) : Scope :=
  { scope with env := scope.env.insert label scope.slot }

/-- The labels, which name the parameters of user code. -/
def params (scope : Scope) : List String := scope.env.keys

/-- The result slots that user code is called with. -/
def args (scope : Scope) : List Nat := scope.env.values

end Scope

end Backtrack
