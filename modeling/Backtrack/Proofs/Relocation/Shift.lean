import Backtrack.Proofs.Locals.Uses
import Backtrack.Proofs.Maps.Insertion

/-!
# Code that is moved to other slots

Every result slot of code is moved up by some number, every position slot by another. The lines are
then the same, but for the names of the locals, and at a greater depth they are set in further.
-/

namespace Backtrack

set_option autoImplicit false

def Call.shift (d : Nat) (call : Call) : Call := { call with args := call.args.map (· + d) }

def Operand.shift (d q : Nat) : Operand → Operand
  | .wrapped start values => .wrapped (start + q) (values.map (· + d))
  | .matchedText start => .matchedText (start + q)
  | operand => operand

def Condition.shift (d : Nat) : Condition → Condition
  | .failed slot => .failed (slot + d)
  | .matched slot => .matched (slot + d)
  | .full array max => .full (array + d) max
  | .short array min => .short (array + d) min
  | .holds call => .holds (call.shift d)

def Instruction.shift (d q : Nat) : Instruction → Instruction
  | .assign slot operand => .assign (slot + d) (operand.shift d q)
  | .save position => .save (position + q)
  | .rewind position => .rewind (position + q)
  | .free slot => .free (slot + d)
  | .append array item => .append (array + d) (item + d)
  | .act call => .act (call.shift d)
  | .mute => .mute
  | .unmute => .unmute
  | .leave => .leave

namespace Code

/-- The code with every result slot moved up by `d` and every position slot by `q`. -/
def shift (d q : Nat) : Code → Code
  | .skip => .skip
  | .seq first second => .seq (first.shift d q) (second.shift d q)
  | .instr instruction => .instr (instruction.shift d q)
  | .remark note => .remark note
  | .blank => .blank
  | .guard condition instruction => .guard (condition.shift d) (instruction.shift d q)
  | .branch condition yes no =>
    .branch (condition.shift d) (yes.map (Instruction.shift d q)) (no.map (Instruction.shift d q))
  | .loop purpose body => .loop purpose (body.shift d q)

end Code

/-- The labels, each with its slot moved up. -/
def Env.shift (d : Nat) (env : Env) : Env := env.mapValues (· + d)

/-- The scope with its slot, and the slot of every label, moved up. -/
def Scope.shift (d : Nat) (scope : Scope) : Scope :=
  { scope with slot := scope.slot + d, env := Env.shift d scope.env }

def Use.shift (d q : Nat) : Use → Use
  | .result role slot => .result role (slot + d)
  | .position role index => .position role (index + q)

/-- The same text, or the name of the local that has taken the place. -/
def Piece.shift (d q : Nat) : Piece → Piece
  | .plain words => .plain words
  | .name use => .name (use.shift d q)

/-- The row with every local in it moved up. -/
def Row.shift (d q : Nat) (row : Row) : Row :=
  { row with pieces := row.pieces.map (Piece.shift d q) }

section Pieces

variable (d q : Nat)

open Piece

@[simp] theorem Piece.shift_plain (words : String) : shift d q (plain words) = plain words := rfl

@[simp] theorem Piece.shift_result (role : ResultRole) (slot : Nat) :
    shift d q (name (.result role slot)) = name (.result role (slot + d)) := rfl

@[simp] theorem Piece.shift_position (role : PositionRole) (index : Nat) :
    shift d q (name (.position role index)) = name (.position role (index + q)) := rfl

@[simp] theorem Piece.map_shift_listed (role : ResultRole) (slots : List Nat) :
    (listed (.result role) slots).map (shift d q) =
      listed (.result role) (slots.map (· + d)) := by
  simp [listed, List.map_flatMap, List.flatMap_map]

theorem Call.pieces_shift (stem : String) (call : Call) :
    (call.shift d).pieces stem = (call.pieces stem).map (Piece.shift d q) := by
  simp [pieces, shift]

theorem Operand.pieces_shift (operand : Operand) :
    (operand.shift d q).pieces = operand.pieces.map (Piece.shift d q) := by
  cases operand with
  | wrapped start values => simp [pieces, shift]
  | matchedText start => simp [pieces, shift]
  | _ => rfl

theorem Condition.pieces_shift (condition : Condition) :
    (condition.shift d).pieces = condition.pieces.map (Piece.shift d q) := by
  cases condition with
  | holds call => exact call.pieces_shift d q _
  | _ => rfl

theorem Instruction.pieces_shift (instruction : Instruction) :
    (instruction.shift d q).pieces = instruction.pieces.map (Piece.shift d q) := by
  cases instruction with
  | assign slot operand => simp [pieces, shift, operand.pieces_shift d q]
  | act call => simp [pieces, shift, call.pieces_shift d q]
  | _ => rfl

end Pieces

namespace Code

variable (d q : Nat)

theorem blockRows_shift (instructions : List Instruction) :
    blockRows (instructions.map (Instruction.shift d q)) =
      (blockRows instructions).map (Row.shift d q) := by
  simp [blockRows, Row.shift, Instruction.pieces_shift]

/-- The rows of moved code are the moved rows. -/
theorem rows_shift (code : Code) : (code.shift d q).rows = code.rows.map (Row.shift d q) := by
  induction code with
  | skip => rfl
  | seq first second ihfirst ihsecond => simp [shift, rows, ihfirst, ihsecond]
  | instr instruction => simp [shift, rows, Row.shift, instruction.pieces_shift]
  | remark note => rfl
  | blank => rfl
  | guard condition instruction =>
    simp [shift, rows, Row.shift, condition.pieces_shift d q, instruction.pieces_shift]
  | branch condition yes no =>
    cases no with
    | nil => simp [shift, rows, Row.shift, condition.pieces_shift d q, blockRows_shift]
    | cons first rest =>
      have hno := blockRows_shift d q (first :: rest)
      simp only [List.map_cons] at hno
      simp [shift, rows, Row.shift, condition.pieces_shift d q, blockRows_shift, hno]
  | loop purpose body ih =>
    have hbody : (body.shift d q).rows.map Row.deeper =
        (body.rows.map Row.deeper).map (Row.shift d q) := by
      rw [ih, List.map_map, List.map_map]
      rfl
    simp [shift, rows, hbody, Row.shift]

end Code

/-- The lines of moved code at a greater depth. -/
theorem Code.lines_shift (d q depth more : Nat) (code : Code) :
    (code.shift d q).lines (depth + more) =
      code.rows.map fun row => Lines.placed more ((row.shift d q).line depth) := by
  simp [Code.lines_eq, Code.rows_shift, Row.placed_line]

end Backtrack
