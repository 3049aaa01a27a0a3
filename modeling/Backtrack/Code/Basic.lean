import Backtrack.Functions

/-!
# Code of a rule function

The body of a rule function as structured code over its locals. Result slots and position slots
are numbered apart from each other; constants and user functions are numbers in their tables.
-/

namespace Backtrack

set_option autoImplicit false

/-- What can be assigned to a result slot. -/
inductive Operand where
  /-- The failure value. -/
  | failed
  /-- The value of a match without a result. -/
  | noMatch
  | emptyArray
  | literal (constant expected : Nat)
  | charClass (constant expected : Nat) (inverted : Bool)
  | anyByte
  /-- The result of another rule. -/
  | rule (name : String)
  /-- Reports a failure, unless failures are silent, and is the failure value. -/
  | failure (expected : Nat)
  /-- The values of a sequence that began at a saved position. -/
  | wrapped (start : Nat) (values : List Nat)
  /-- The input since a saved position. -/
  | matchedText (start : Nat)
  deriving DecidableEq, Repr

inductive Condition where
  | failed (slot : Nat)
  | matched (slot : Nat)
  /-- The array has at least `max` items. -/
  | full (array : Nat) (max : UInt32)
  /-- The array has fewer than `min` items. -/
  | short (array : Nat) (min : UInt32)
  /-- A predicate says yes. -/
  | holds (call : Call)
  deriving DecidableEq, Repr

inductive Instruction where
  | assign (slot : Nat) (operand : Operand)
  /-- Saves the input position. -/
  | save (position : Nat)
  /-- Moves the input back to a saved position. -/
  | rewind (position : Nat)
  /-- Makes failures silent, one level more. -/
  | mute
  | unmute
  | free (slot : Nat)
  | append (array item : Nat)
  | act (call : Call)
  /-- Leaves the innermost loop. -/
  | leave
  deriving DecidableEq, Repr

/-- Loops by what they are for. Those of sequences and choices run once and are there to be
left; that of a repetition runs until it is left. -/
inductive Loop where
  | sequence
  | choice
  | repetition
  deriving DecidableEq, Repr

/-- A remark on the part of an expression that follows. -/
inductive Remark where
  | element (number : Nat)
  | alternative (number : Nat)
  deriving DecidableEq, Repr

inductive Code where
  | skip
  | seq (first second : Code)
  | instr (instruction : Instruction)
  | remark (note : Remark)
  | blank
  /-- One instruction under a condition, on one line. -/
  | guard (condition : Condition) (instruction : Instruction)
  | branch (condition : Condition) (yes no : List Instruction)
  | loop (purpose : Loop) (body : Code)
  deriving DecidableEq, Repr

namespace Code

instance : Append Code := ⟨.seq⟩

/-- Code parts one after another. -/
def all : List Code → Code
  | [] => .skip
  | part :: rest => part ++ all rest

end Code

end Backtrack
