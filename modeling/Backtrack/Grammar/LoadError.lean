import Backtrack.Grammar.Basic

/-!
# Why a grammar cannot be loaded
-/

namespace Backtrack

set_option autoImplicit false

inductive LoadError where
  /-- The text is not one JSON value. -/
  | malformed
  | missingField (name : String)
  | duplicateField (name : String)
  /-- The tag of a node names no kind of expression. -/
  | unknownKind (tag : String)
  /-- An element of a class is neither one character nor a pair of characters. -/
  | classPart
  | invalidType
  | invalidValue
  | invalidLength
  deriving DecidableEq, Repr

namespace LoadError

def quoted (name : String) : String := "`" ++ name ++ "`"

/-- What is wrong with a well-formed text; a malformed one has nothing more to say. -/
def detail? : LoadError → Option String
  | .malformed => none
  | .missingField name => some ("missing field " ++ quoted name)
  | .duplicateField name => some ("duplicate field " ++ quoted name)
  | .unknownKind tag =>
    some ("unknown variant " ++ quoted tag ++ ", expected one of " ++
      ", ".intercalate (Kind.all.map fun kind => quoted kind.name))
  | .classPart => some "data did not match any variant of untagged enum RawClassPart"
  | .invalidType => some "invalid type"
  | .invalidValue => some "invalid value"
  | .invalidLength => some "invalid length"

def message? (error : LoadError) : Option String :=
  error.detail?.map ("JSON parse error: " ++ ·)

end LoadError

end Backtrack
