import Backtrack.Grammar.Record

/-!
# Decoding JSON

Values that a grammar is made of, decoded from a JSON tree. The tree is that of a text, which may
turn out malformed at any place, or a plain value.
-/

namespace Backtrack.Format

set_option autoImplicit false

/-- A number of 32 bits. A whole number of 64 bits is a number of the right type. -/
def word : Json.Number → Except LoadError UInt32
  | .whole false n =>
    if n < UInt32.size then .ok n.toUInt32
    else if n < UInt64.size then .error .invalidValue
    else .error .invalidType
  | .whole true n =>
    if 0 < n ∧ 2 * n ≤ UInt64.size then .error .invalidValue else .error .invalidType
  | .scaled .. => .error .invalidType

/-- What decoding has to know about where a tree comes from. -/
structure Source (ε : Type) where
  /-- The error for a flaw where a value is wanted. -/
  flawed : ε → LoadError
  /-- Passes over a member that is no field. -/
  pass : Json ε → Except LoadError Unit
  /-- The error for an array with more items than fields. -/
  surplus : LoadError

section

variable {ε : Type} {α : Type} (source : Source ε)

/-- The error for a tree of another type than wanted. -/
def mismatch : Json ε → LoadError
  | .flaw cause => source.flawed cause
  | _ => .invalidType

def string : Json ε → Except LoadError String
  | .string s => .ok s
  | other => .error (mismatch source other)

def bool : Json ε → Except LoadError Bool
  | .bool b => .ok b
  | other => .error (mismatch source other)

def number : Json ε → Except LoadError UInt32
  | .number n => word n
  | other => .error (mismatch source other)

/-- A value that may be null, which stands for an absent one. -/
def nullable (decode : Json ε → Except LoadError α) : Json ε → Except LoadError (Option α)
  | .null => .ok none
  | other => some <$> decode other

def list (decode : Json ε → Except LoadError α) : Json ε → Except LoadError (List α)
  | .array items => items.mapM decode
  | other => .error (mismatch source other)

/-- A record of the given fields. -/
def record (fields : List String) (decode : Record (Json ε) → Reading α) (tree : Json ε) :
    Except LoadError α :=
  let whole (r : Record (Json ε)) : Except LoadError α :=
    (decode r <* r.others fields source.pass source.surplus).toExcept
  match tree with
  | .object members => whole (.named members)
  | .array items => whole (.listed fields items)
  | other => .error (mismatch source other)

def position : Json ε → Except LoadError Position :=
  record source ["offset", "line", "column"] fun r =>
    Position.mk <$> r.required "offset" (number source) <*> r.required "line" (number source) <*>
      r.required "column" (number source)

def region : Json ε → Except LoadError Region :=
  record source ["begin", "end"] fun r =>
    Region.mk <$> r.required "begin" (position source) <*> r.required "end" (position source)

/-- The region among the fields of a record. -/
def regionField (r : Record (Json ε)) : Reading (Option Region) :=
  Option.join <$> r.optional "region" (nullable (region source))

/-- User code among the fields of a record, in the default namespace when it names none. -/
def codeFields {γ : Type} (string : γ → Except LoadError String)
    (nullable : γ → Except LoadError (Option String)) (r : Record γ) : Reading UserCode :=
  (fun body space => ⟨space.join.getD defaultNamespace, body⟩) <$>
    r.required "code" string <*> r.optional "namespace" nullable

def initializer : Json ε → Except LoadError UserCode :=
  record source ["code", "namespace"] (codeFields (string source) (nullable (string source)))

end

/-- A plain value has no flaws, and all of it has been read before. -/
def plain : Source Empty where
  flawed := nofun
  pass _ := .ok ()
  surplus := .invalidLength

/-- In a text a member that is no field has to be well formed. -/
def text : Source Json.Flaw where
  flawed _ := .malformed
  pass
    | .flaw .noKey => .error .malformed
    | tree => if tree.isClosed then .ok () else .error .malformed
  surplus := .malformed

end Backtrack.Format
