import Backtrack.Json.Token

/-!
# Reading a JSON text

The tokens drive a machine that keeps the containers still open. At the first token that does
not fit, or at the end of the text, the containers are closed around what was read, and a cut
marks the place. So a tree comes out of every text, and it is a plain value exactly for a text
that is one.
-/

namespace Backtrack.Json

set_option autoImplicit false

/-- A container still open, waiting for a value; what it holds already comes last first. -/
inductive Frame where
  | items (before : List (Json Flaw))
  | members (before : List (String × Json Flaw)) (key : String)

/-- What has been read and what may come next; open containers come innermost first. -/
inductive Reader where
  /-- A value is due. -/
  | value (stack : List Frame)
  /-- A value or the end of an empty array is due. -/
  | item (stack : List Frame)
  /-- A key is due, or the end of the object when it has no members yet. -/
  | key (before : List (String × Json Flaw)) (stack : List Frame)
  /-- A colon is due after a key. -/
  | colon (before : List (String × Json Flaw)) (key : String) (stack : List Frame)
  /-- A value is complete and goes into the innermost container. -/
  | after (value : Json Flaw) (stack : List Frame)

namespace Reader

/-- The step of a machine that waits for a value. -/
def begin? (stack : List Frame) : Token → Option Reader
  | .null => some (.after .null stack)
  | .bool b => some (.after (.bool b) stack)
  | .number n => some (.after (.number n) stack)
  | .string s => some (.after (.string s) stack)
  | .hugeNumber | .brokenString => some (.after (.flaw .noValue) stack)
  | .openArray => some (.item stack)
  | .openObject => some (.key [] stack)
  | _ => none

/-- The next state, unless the token does not fit. -/
def step? : Reader → Token → Option Reader
  | .value stack, token => begin? stack token
  | .item stack, .closeArray => some (.after (.array []) stack)
  | .item stack, token => begin? (.items [] :: stack) token
  | .key [] stack, .closeObject => some (.after (.object []) stack)
  | .key before stack, .string name => some (.colon before name stack)
  | .key before stack, .brokenString => some (.colon (("", .flaw .noKey) :: before) "" stack)
  | .colon before name stack, .colon => some (.value (.members before name :: stack))
  | .after v (.items before :: stack), .comma =>
    some (.value (.items (v :: before) :: stack))
  | .after v (.items before :: stack), .closeArray =>
    some (.after (.array (v :: before).reverse) stack)
  | .after v (.members before name :: stack), .comma =>
    some (.key ((name, v) :: before) stack)
  | .after v (.members before name :: stack), .closeObject =>
    some (.after (.object ((name, v) :: before).reverse) stack)
  | _, _ => none

/-- The tree around a value in the innermost container, when nothing follows it. -/
def unwind (v : Json Flaw) : List Frame → Json Flaw
  | [] => v
  | .items before :: stack => unwind (.array (v :: before).reverse) stack
  | .members before name :: stack => unwind (.object ((name, v) :: before).reverse) stack

/-- The tree read so far, with a cut where more was due. -/
def tree : Reader → Json Flaw
  | .value stack => unwind (.flaw .cut) stack
  | .item stack => unwind (.array [.flaw .cut]) stack
  | .key before stack => unwind (.object (("", .flaw .cut) :: before).reverse) stack
  | .colon before name stack => unwind (.object ((name, .flaw .cut) :: before).reverse) stack
  | .after v [] => v
  | .after v (.items before :: stack) =>
    unwind (.array (.flaw .cut :: v :: before).reverse) stack
  | .after v (.members before name :: stack) =>
    unwind (.object (("", .flaw .cut) :: (name, v) :: before).reverse) stack

end Reader

/-- A text as read: its tree, and whether nothing follows the tree. -/
structure Document where
  root : Json Flaw
  ended : Bool

namespace Document

def run (reader : Reader) : List Token → Document
  | [] => ⟨reader.tree, true⟩
  | token :: rest =>
    match reader.step? token with
    | some next => run next rest
    | none => ⟨reader.tree, false⟩

def ofString (text : String) : Document := run (.value []) (Token.list text)

end Document

/-- How deep the arrays and objects of a text may nest as far as its values are taken. -/
def maxDepth : Nat := 127

/-- The value of a text that is one JSON value and nests no deeper than allowed. -/
def parse? (text : String) : Option Value :=
  let document := Document.ofString text
  if document.ended && decide (document.root.depth ≤ maxDepth) then document.root.value? else none

/-- A value read from a text nests no deeper than allowed. -/
theorem depth_le_of_parse? {text : String} {value : Value} (h : parse? text = some value) :
    value.depth ≤ maxDepth := by
  simp only [parse?, Option.ite_none_right_eq_some, Bool.and_eq_true, decide_eq_true_eq] at h
  rw [depth_of_value? h.2]
  exact h.1.2

end Backtrack.Json
