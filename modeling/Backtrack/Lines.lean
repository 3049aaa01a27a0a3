/-!
# Indented lines

Lines of output are gathered at a current depth, two spaces to the level. A line without text
stays empty at any depth.
-/

namespace Backtrack

set_option autoImplicit false

structure Lines where
  depth : Nat
  toList : List String
  deriving Repr, Inhabited

namespace Lines

def empty : Lines := ⟨0, []⟩

/-- No lines yet, at the given depth. -/
def indented (depth : Nat) : Lines := ⟨depth, []⟩

/-- A line as it stands at a depth. -/
def placed (depth : Nat) (line : String) : String :=
  if line = "" then "" else String.ofList (List.replicate (2 * depth) ' ') ++ line

def push (out : Lines) (line : String) : Lines :=
  { out with toList := out.toList ++ [placed out.depth line] }

def extend (out : Lines) (lines : List String) : Lines :=
  { out with toList := out.toList ++ lines.map (placed out.depth) }

/-- Adds a text, of one or more lines, as it is. -/
def pushRaw (out : Lines) (text : String) : Lines :=
  { out with toList := out.toList ++ [text] }

/-- Adds the lines gathered elsewhere, which keep their depth. -/
def append (out other : Lines) : Lines :=
  { out with toList := out.toList ++ other.toList }

def indent (out : Lines) : Lines := { out with depth := out.depth + 1 }

def dedent (out : Lines) : Lines := { out with depth := out.depth - 1 }

/-- A line that begins a block. -/
def enter (out : Lines) (line : String) : Lines := (out.push line).indent

/-- A line that ends a block. -/
def leave (out : Lines) (line : String) : Lines := out.dedent.push line

def last? (out : Lines) : Option String := out.toList.getLast?

/-- The lines as one text, without a line break at the end. -/
def text (out : Lines) : String := "\n".intercalate out.toList

@[simp] theorem placed_zero (line : String) : placed 0 line = line := by
  by_cases h : line = "" <;> simp [placed, h]

@[simp] theorem placed_empty (depth : Nat) : placed depth "" = "" := rfl

end Lines

end Backtrack
