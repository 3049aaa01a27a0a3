import Backtrack.Proofs.Generation.Tables

/-!
# Running code

Code runs on result slots, saved positions, the position in the input and the level of silence.
What matchers and predicates answer is left to a runtime; what they are called with is logged. A
run bounds the rounds of every repetition, and is cut off where the bound is reached.
-/

namespace Backtrack

set_option autoImplicit false

/-- What can be matched by a single call, with its constants as they stand in the tables. -/
inductive Matcher where
  | literal (constant expected : String)
  | charClass (constant expected : String) (inverted : Bool)
  | anyByte
  | rule (name : String)
  deriving DecidableEq

/-- The value of a match. Where a result is optional, `none` is the failure value. -/
inductive Value (Pos : Type) where
  | nil
  | token (number : Nat)
  | array (items : List (Option (Value Pos)))
  | wrapped (start stop : Pos) (parts : List (Option (Value Pos)))
  | text (start stop : Pos)

namespace Value

variable {Pos : Type}

/-- How many items an array has. -/
def count : Option (Value Pos) → Nat
  | some (.array items) => items.length
  | _ => 0

def push (item : Option (Value Pos)) : Option (Value Pos) → Option (Value Pos)
  | some (.array items) => some (.array (items ++ [item]))
  | other => other

end Value

/-- What the generated code calls: matchers either fail or give a value and a new position, and
predicates say yes or no. Both depend on the position only. -/
structure Runtime (Pos : Type) where
  scan : Matcher → Pos → Option (Value Pos × Pos)
  holds : UserFunction → Pos → Bool

/-- A call that leaves the function; user code is called with arguments. -/
inductive Event (Arg : Type) where
  | scanned (matcher : Matcher)
  | reported (expected : String)
  | asked (function : UserFunction) (args : List Arg)
  | acted (function : UserFunction) (args : List Arg)

structure State (Pos : Type) where
  results : Nat → Option (Value Pos)
  positions : Nat → Pos
  /-- The position in the input. -/
  current : Pos
  /-- How many levels deep failures are silent. -/
  silent : Int
  /-- The calls so far, each with the level of silence it was made at. -/
  log : List (Int × Event (Option (Value Pos)))

/-- How a run of code ends. -/
inductive Ending where
  | done
  /-- On its way out of the innermost loop. -/
  | left
  /-- Cut off inside a repetition. -/
  | cut
  deriving DecidableEq

variable {Pos : Type}

namespace State

def assign (s : State Pos) (slot : Nat) (result : Option (Value Pos)) : State Pos :=
  { s with results := fun i => if i = slot then result else s.results i }

def save (s : State Pos) (position : Nat) : State Pos :=
  { s with positions := fun i => if i = position then s.current else s.positions i }

def record (s : State Pos) (event : Event (Option (Value Pos))) : State Pos :=
  { s with log := s.log ++ [(s.silent, event)] }

def args (s : State Pos) (slots : List Nat) : List (Option (Value Pos)) := slots.map s.results

@[simp] theorem assign_self (s : State Pos) (slot : Nat) (result : Option (Value Pos)) :
    (s.assign slot result).results slot = result := if_pos rfl

theorem assign_of_ne (s : State Pos) {slot i : Nat} (result : Option (Value Pos))
    (h : i ≠ slot) : (s.assign slot result).results i = s.results i := if_neg h

@[simp] theorem save_self (s : State Pos) (position : Nat) :
    (s.save position).positions position = s.current := if_pos rfl

theorem save_of_ne (s : State Pos) {position i : Nat} (h : i ≠ position) :
    (s.save position).positions i = s.positions i := if_neg h

/-- Calls a matcher. -/
def scan (rt : Runtime Pos) (s : State Pos) (matcher : Matcher) :
    Option (Value Pos) × State Pos :=
  let s := s.record (.scanned matcher)
  match rt.scan matcher s.current with
  | none => (none, s)
  | some (value, stop) => (some value, { s with current := stop })

end State

namespace Session

def literalAt (tables : Session) (number : Nat) : String := tables.literals.getD number ""

def classAt (tables : Session) (number : Nat) : String := tables.classes.getD number ""

def descriptionAt (tables : Session) (number : Nat) : String := tables.descriptions.getD number ""

def predicateAt (tables : Session) (number : Nat) : UserFunction :=
  tables.predicates.getD number ⟨"", [], ""⟩

def actionAt (tables : Session) (number : Nat) : UserFunction :=
  tables.actions.getD number ⟨"", [], ""⟩

end Session

section Run

variable (tables : Session) (rt : Runtime Pos)

def Operand.run (s : State Pos) : Operand → Option (Value Pos) × State Pos
  | .failed => (none, s)
  | .noMatch => (some .nil, s)
  | .emptyArray => (some (.array []), s)
  | .literal constant expected =>
    s.scan rt (.literal (tables.literalAt constant) (tables.descriptionAt expected))
  | .charClass constant expected inverted =>
    s.scan rt (.charClass (tables.classAt constant) (tables.descriptionAt expected) inverted)
  | .anyByte => s.scan rt .anyByte
  | .rule name => s.scan rt (.rule name)
  | .failure expected => (none, s.record (.reported (tables.descriptionAt expected)))
  | .wrapped start values =>
    (some (.wrapped (s.positions start) s.current (s.args values)), s)
  | .matchedText start => (some (.text (s.positions start) s.current), s)

def Condition.run (s : State Pos) : Condition → Bool × State Pos
  | .failed slot => ((s.results slot).isNone, s)
  | .matched slot => ((s.results slot).isSome, s)
  | .full array max => (decide (max.toNat ≤ Value.count (s.results array)), s)
  | .short array min => (decide (Value.count (s.results array) < min.toNat), s)
  | .holds call =>
    let function := tables.predicateAt call.index
    (rt.holds function s.current, s.record (.asked function (s.args call.args)))

def Instruction.run (s : State Pos) : Instruction → Ending × State Pos
  | .assign slot operand =>
    let (result, s) := operand.run tables rt s
    (.done, s.assign slot result)
  | .save position => (.done, s.save position)
  | .rewind position => (.done, { s with current := s.positions position })
  | .mute => (.done, { s with silent := s.silent + 1 })
  | .unmute => (.done, { s with silent := s.silent - 1 })
  | .free _ => (.done, s)
  | .append array item =>
    (.done, s.assign array (Value.push (s.results item) (s.results array)))
  | .act call => (.done, s.record (.acted (tables.actionAt call.index) (s.args call.args)))
  | .leave => (.left, s)

/-- What comes next, unless the run has left or was cut off. -/
def andThen (next : State Pos → Ending × State Pos) : Ending × State Pos → Ending × State Pos
  | (.done, s) => next s
  | (.left, s) => (.left, s)
  | (.cut, s) => (.cut, s)

/-- The end of a loop that runs once. -/
def landed : Ending × State Pos → Ending × State Pos
  | (.cut, s) => (.cut, s)
  | (_, s) => (.done, s)

/-- Runs the body of a loop until it is left, for at most as many rounds as given. -/
def rounds (body : State Pos → Ending × State Pos) : Nat → State Pos → Ending × State Pos
  | 0, s => (.cut, s)
  | n + 1, s =>
    match body s with
    | (.done, s) => rounds body n s
    | (.left, s) => (.done, s)
    | (.cut, s) => (.cut, s)

def Instruction.runAll : List Instruction → State Pos → Ending × State Pos
  | [], s => (.done, s)
  | first :: rest, s => andThen (runAll rest) (first.run tables rt s)

/-- Runs code, with at most `n` rounds of each repetition. -/
def Code.run (n : Nat) : Code → State Pos → Ending × State Pos
  | .skip, s | .remark _, s | .blank, s => (.done, s)
  | .seq first second, s => andThen (second.run n) (first.run n s)
  | .instr instruction, s => instruction.run tables rt s
  | .guard condition instruction, s =>
    let (holds, s) := condition.run tables rt s
    if holds then instruction.run tables rt s else (.done, s)
  | .branch condition yes no, s =>
    let (holds, s) := condition.run tables rt s
    Instruction.runAll tables rt (if holds then yes else no) s
  | .loop .repetition body, s => rounds (body.run n) n s
  | .loop .sequence body, s | .loop .choice body, s => landed (body.run n s)

attribute [simp] Code.all Operand.run Condition.run Instruction.run andThen landed
  Instruction.runAll Code.run

@[simp] theorem Code.run_append (n : Nat) (first second : Code) (s : State Pos) :
    (first ++ second).run tables rt n s =
      andThen (second.run tables rt n) (first.run tables rt n s) := rfl

theorem andThen_done (out : Ending × State Pos) : andThen (fun s => (.done, s)) out = out := by
  obtain ⟨ending, s⟩ := out
  cases ending <;> rfl

end Run

end Backtrack
