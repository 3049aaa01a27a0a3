import Backtrack.CString
import Backtrack.Interner

/-!
# Static tables

Literals, character classes and descriptions of failures become static data of the generated
parser. A constant is known by its initializer, so that expressions which match the same thing
share one entry.
-/

namespace Backtrack

set_option autoImplicit false

/-- A table of static data of one C type. -/
structure ConstantTable where
  stem : String
  type : String
  values : Interner String := {}
  deriving Repr

namespace ConstantTable

def name (table : ConstantTable) (index : Nat) : String := table.stem ++ toString index

/-- The number of the constant with an initializer, with the table that has it. -/
def add (table : ConstantTable) (value : String) : Nat × ConstantTable :=
  let (index, values) := table.values.intern value
  (index, { table with values })

/-- One definition for each entry, in the order of their numbers. -/
def definitions (table : ConstantTable) : List String :=
  table.values.toList.zipIdx.map fun (value, index) =>
    "static " ++ table.type ++ " " ++ table.name index ++ " = " ++ value ++ ";"

end ConstantTable

/-- What the description of a failure describes. -/
inductive ExpectedKind where
  | literal
  | charClass
  /-- A readable name. -/
  | other
  deriving DecidableEq, Repr

def ExpectedKind.tag : ExpectedKind → String
  | .literal => "E_EX_TYPE_LITERAL"
  | .charClass => "E_EX_TYPE_CLASS"
  | .other => "E_EX_TYPE_OTHER"

namespace Constants

def literalStem : String := "l"

def classStem : String := "c"

def expectedStem : String := "e"

def braced (fields : String) : String := "\x7b " ++ fields ++ " \x7d"

def quoted (bytes : Bytes) : String := "\"" ++ CString.escape bytes ++ "\""

/-- A literal: the count of its bytes, and the bytes. -/
def literal (bytes : Bytes) : String :=
  braced (toString bytes.length ++ ", " ++ quoted bytes)

/-- The bounds of byte ranges, each low one before its high one. -/
def bounds (ranges : List (UInt8 × UInt8)) : Bytes := ranges.flatMap fun (low, high) => [low, high]

/-- A character class: the counts of its single bytes and of its ranges, and both. -/
def charClass (singles : Bytes) (ranges : List (UInt8 × UInt8)) : String :=
  braced ("MAKE_LENGTHS(" ++ toString singles.length ++ ", " ++ toString ranges.length ++ "), " ++
    quoted singles ++ ", " ++ quoted (bounds ranges))

/-- A description of a failure: what it describes, the count of its bytes, and the bytes. -/
def expected (kind : ExpectedKind) (description : Bytes) : String :=
  braced ("MAKE_TYPEANDLEN(" ++ kind.tag ++ ", " ++ toString description.length ++ "), " ++
    quoted description)

end Constants

/-- The three tables of a parser. -/
structure ConstantPool where
  literals : ConstantTable := { stem := Constants.literalStem, type := "struct Literal" }
  classes : ConstantTable := { stem := Constants.classStem, type := "struct CharClass" }
  expected : ConstantTable := { stem := Constants.expectedStem, type := "struct Expected" }
  deriving Repr

namespace ConstantPool

def addLiteral (pool : ConstantPool) (bytes : Bytes) : Nat × ConstantPool :=
  let (index, literals) := pool.literals.add (Constants.literal bytes)
  (index, { pool with literals })

def addClass (pool : ConstantPool) (singles : Bytes) (ranges : List (UInt8 × UInt8)) :
    Nat × ConstantPool :=
  let (index, classes) := pool.classes.add (Constants.charClass singles ranges)
  (index, { pool with classes })

def addExpected (pool : ConstantPool) (kind : ExpectedKind) (description : String) :
    Nat × ConstantPool :=
  let (index, expected) := pool.expected.add (Constants.expected kind (Bytes.ofString description))
  (index, { pool with expected })

/-- Packs the count of single bytes and the count of ranges of a class. -/
def makeLengths : String :=
  "#define MAKE_LENGTHS(_1, _2) (((_1) << (sizeof(((struct CharClass*)0)->counts)*4)) | (_2))"

/-- Packs the tag of a description into the top three bits of its length. -/
def makeTypeAndLen : String :=
  "#define MAKE_TYPEANDLEN(type, len) ((type << (sizeof(((struct Expected*)0)->typeAndLen)*8 - 3)) | len)"

def literalLines (pool : ConstantPool) : List String := pool.literals.definitions

def classLines (pool : ConstantPool) : List String :=
  makeLengths :: (pool.classes.definitions ++ ["#undef MAKE_LENGTHS"])

def expectedLines (pool : ConstantPool) : List String :=
  makeTypeAndLen :: (pool.expected.definitions ++ ["#undef MAKE_TYPEANDLEN"])

end ConstantPool

end Backtrack
