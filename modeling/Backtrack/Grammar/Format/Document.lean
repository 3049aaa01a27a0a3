import Backtrack.Grammar.Format.Node
import Backtrack.Json.Document

/-!
# Grammar documents

A grammar arrives as a JSON text or as a JSON value. Both are decoded by the same rules; they
differ in what is noticed beside the fields. A value has its members sorted by key. A text is
read in its own order, may turn out malformed at any place, and nests the nodes of expressions
only so deep.
-/

namespace Backtrack

set_option autoImplicit false

namespace Format

/-- The outermost nodes stand in a rule, in the list of rules, in the grammar. -/
def nodeDepth : Nat := 4

/-- A member of a node in a text is taken whole, as a plain value. -/
def held (tree : Json Json.Flaw) : Except LoadError Json.Value :=
  if nodeDepth + tree.depth ≤ Json.maxDepth then tree.value?.elim (.error .malformed) .ok
  else .error .malformed

/-- The members of a node in a text other than its region, from a place on. -/
def heldMembers : Nat → List (String × Json Json.Flaw) → Reading (List (String × Json.Value))
  | _, [] => pure []
  | place, (key, tree) :: rest =>
    if key = "region" then heldMembers (place + 1) rest
    else (fun value values => (key, value) :: values) <$> Reading.ofExcept place (held tree) <*>
      heldMembers (place + 1) rest

/-- An expression from a text. -/
def textExpr : Json Json.Flaw → Except LoadError Expr
  | .object members => do
    let (region, values) ←
      (Prod.mk <$> regionField text (.named members) <*> heldMembers 0 members).toExcept
    node region (fields values)
  | other => .error (mismatch text other)

section

variable {ε : Type} (source : Source ε) (expr : Json ε → Except LoadError Expr)

def rule : Json ε → Except LoadError Rule :=
  record source ["name", "expression", "region"] fun r =>
    Rule.mk <$> r.required "name" (string source) <*> r.required "expression" expr <*>
      regionField source r

def grammar : Json ε → Except LoadError Grammar :=
  record source ["initializers", "rules"] fun r =>
    Grammar.mk <$> r.defaulted "initializers" [] (list source (initializer source)) <*>
      r.required "rules" (list source (rule source expr))

end

end Format

/-- Loads a grammar from a plain value. -/
def Grammar.ofValue (value : Json.Value) : Except LoadError Grammar :=
  Format.grammar Format.plain Format.expr value.canonical

/-- Loads a grammar from a text, which has to hold nothing else. -/
def Grammar.ofText (text : String) : Except LoadError Grammar := do
  let document := Json.Document.ofString text
  let grammar ← Format.grammar Format.text Format.textExpr document.root
  if document.ended then return grammar else throw .malformed

end Backtrack
