import Backtrack.Json.Basic
import Backtrack.Grammar.LoadError

/-!
# Records

A record is a set of named fields, written as an object or as an array of its fields in order of
declaration. Its parts are read one after another, so of several faults the one that stands
first in the text is reported, and absent fields are noticed after all present ones.
-/

namespace Backtrack

set_option autoImplicit false

/-- The outcome of reading parts of a record: a value, or the first fault and its place. -/
inductive Reading (α : Type) where
  | done (value : α)
  | fault (place : Nat) (error : LoadError)

namespace Reading

variable {α β : Type}

/-- Reads both parts; of two faults the earlier one stays, of two at one place the left one. -/
def apply (f : Reading (α → β)) (x : Reading α) : Reading β :=
  match f, x with
  | .done g, .done a => .done (g a)
  | .done _, .fault place error => .fault place error
  | .fault place error, .done _ => .fault place error
  | .fault place error, .fault place' error' =>
    if place' < place then .fault place' error' else .fault place error

instance : Applicative Reading where
  pure := .done
  seq f x := apply f (x ())

def ofExcept (place : Nat) : Except LoadError α → Reading α
  | .ok a => .done a
  | .error error => .fault place error

def toExcept : Reading α → Except LoadError α
  | .done a => .ok a
  | .fault _ error => .error error

/-- A record is read exactly when all its parts are. -/
theorem apply_eq_done_iff {f : Reading (α → β)} {x : Reading α} {b : β} :
    f.apply x = .done b ↔ ∃ g a, f = .done g ∧ x = .done a ∧ g a = b := by
  cases f <;> cases x <;> simp only [apply]
  · simp
  · simp
  · simp
  · split <;> simp

end Reading

/-- The two ways to write a record. -/
inductive Record (α : Type) where
  | named (members : List (String × α))
  | listed (fields : List String) (items : List α)

namespace Record

variable {α β : Type}

/-- The members of one name with their places. -/
def occurrences (name : String) (members : List (String × α)) : List (α × Nat) :=
  members.zipIdx.filterMap fun ((key, value), place) =>
    if key = name then some (value, place) else none

/-- A field that may be absent. -/
def optional (name : String) (decode : α → Except LoadError β) :
    Record α → Reading (Option β)
  | .named members =>
    match occurrences name members with
    | [] => .done none
    | [(value, place)] => some <$> Reading.ofExcept place (decode value)
    | (value, place) :: (_, again) :: _ =>
      match decode value with
      | .ok _ => .fault again (.duplicateField name)
      | .error error => .fault place error
  | .listed fields items =>
    match items[fields.idxOf name]? with
    | none => .done none
    | some value => some <$> Reading.ofExcept (fields.idxOf name) (decode value)

/-- The fault of a field that is not there. -/
def absent (name : String) : Record α → Reading β
  | .named members => .fault members.length (.missingField name)
  | .listed _ items => .fault items.length .invalidLength

/-- A field that has to be there. -/
def required (name : String) (decode : α → Except LoadError β) (record : Record α) :
    Reading β :=
  match record.optional name decode with
  | .done (some value) => .done value
  | .done none => record.absent name
  | .fault place error => .fault place error

/-- A field with a default. -/
def defaulted (name : String) (default : β) (decode : α → Except LoadError β)
    (record : Record α) : Reading β :=
  (·.getD default) <$> record.optional name decode

/-- Everything that is no field: members of other names are passed over, items beyond the
fields are refused. -/
def others (fields : List String) (pass : α → Except LoadError Unit) (surplus : LoadError) :
    Record α → Reading Unit
  | .named members =>
    let refused := members.zipIdx.findSome? fun ((key, value), place) =>
      if key ∈ fields then none
      else match pass value with
        | .ok _ => none
        | .error error => some (place, error)
    match refused with
    | none => .done ()
    | some (place, error) => .fault place error
  | .listed _ items =>
    if fields.length < items.length then .fault fields.length surplus else .done ()

end Record

end Backtrack
