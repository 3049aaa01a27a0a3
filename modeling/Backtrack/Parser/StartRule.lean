import Backtrack.Code.Text

/-!
# Start rules

A parser finds the rule to start with by a search in a sorted table of rule names.
-/

namespace Backtrack.StartRule

set_option autoImplicit false

/-- The order of the search: shorter names first, names of equal length by their bytes. -/
def le (a b : String) : Bool :=
  let left := Bytes.ofString a
  let right := Bytes.ofString b
  decide (left.length < right.length) ||
    (decide (left.length = right.length) && Bytes.lexLE left right)

/-- The names in the order of the search; names of equal bytes stay as they are. -/
def order (names : List String) : List String := names.mergeSort le

/-- The entry of a rule in the table. -/
def entry (name : String) : String :=
  "\x7b " ++ toString (Bytes.ofString name).length ++ ", \"" ++ CString.escapeString name ++
    "\", &" ++ RuleName.function name ++ " \x7d"

/-- Items parted by commas. -/
def separated : List String → List String
  | [] => []
  | [last] => [last]
  | first :: rest => (first ++ ",") :: separated rest

/-- The lines of the table. -/
def table (names : List String) : List String := separated ((order names).map entry)

end Backtrack.StartRule
