import Backtrack.Generate.Rule
import Backtrack.Proofs.Execution.Machine
import Mathlib.Logic.Relation

/-!
# Paths through code

A path takes a branch whenever its condition can hold. Tests for failure and counts go by what was
assigned; what matchers, other rules and user code answer is open. A path strays where it reads a
local that nothing was assigned to yet.
-/

namespace Backtrack

set_option autoImplicit false

/-- What is known of a result slot along a path. -/
inductive Cell where
  /-- Nothing was assigned yet. -/
  | blank
  | failed
  | value
  | array (count : Nat)
  deriving DecidableEq

namespace Cell

/-- The cell is that of a match, or that of a failure. -/
def Is (matched : Bool) : Cell → Prop
  | .blank => False
  | .failed => matched = false
  | .value | .array _ => matched = true

/-- What the test for failure can say. -/
def Fails (answer : Bool) : Cell → Prop
  | .blank => True
  | .failed => answer = true
  | .value | .array _ => answer = false

/-- What a test of the number of items can say. -/
def Counts (test : Nat → Bool) (answer : Bool) : Cell → Prop
  | .array count => answer = test count
  | .blank | .failed | .value => True

def push : Cell → Cell
  | .array count => .array (count + 1)
  | other => other

theorem Is.ne_blank {matched : Bool} {cell : Cell} (h : cell.Is matched) : cell ≠ .blank := by
  rintro rfl
  exact h

theorem Is.unique {matched matched' : Bool} {cell : Cell} (h : cell.Is matched)
    (h' : cell.Is matched') : matched = matched' := by
  cases cell with
  | blank => exact h.elim
  | failed => exact h.trans h'.symm
  | value => exact h.trans h'.symm
  | array count => exact h.trans h'.symm

theorem Is.fails_iff {matched : Bool} {cell : Cell} (h : cell.Is matched) (answer : Bool) :
    cell.Fails answer ↔ answer = !matched := by
  cases cell with
  | blank => exact h.elim
  | failed => cases h; rfl
  | value => cases h; rfl
  | array count => cases h; rfl

end Cell

/-- A local of a rule function. -/
inductive Local where
  | result (slot : Nat)
  | position (number : Nat)
  deriving DecidableEq

/-- What is known of the locals along a path. -/
structure Locals where
  results : Nat → Cell
  saved : Nat → Bool

namespace Locals

/-- The locals on entry to the function. -/
def fresh : Locals := ⟨fun _ => .blank, fun _ => false⟩

def assign (s : Locals) (slot : Nat) (cell : Cell) : Locals :=
  { s with results := fun i => if i = slot then cell else s.results i }

def save (s : Locals) (position : Nat) : Locals :=
  { s with saved := fun i => if i = position then true else s.saved i }

/-- Nothing was assigned to the local. -/
def Unset (s : Locals) : Local → Prop
  | .result slot => s.results slot = .blank
  | .position number => s.saved number = false

@[simp] theorem assign_self (s : Locals) (slot : Nat) (cell : Cell) :
    (s.assign slot cell).results slot = cell := if_pos rfl

theorem assign_of_ne (s : Locals) {slot i : Nat} (cell : Cell) (h : i ≠ slot) :
    (s.assign slot cell).results i = s.results i := if_neg h

@[simp] theorem saved_assign (s : Locals) (slot : Nat) (cell : Cell) :
    (s.assign slot cell).saved = s.saved := rfl

@[simp] theorem save_self (s : Locals) (position : Nat) :
    (s.save position).saved position = true := if_pos rfl

@[simp] theorem results_save (s : Locals) (position : Nat) :
    (s.save position).results = s.results := rfl

end Locals

def Operand.reads : Operand → List Local
  | .wrapped start values => .position start :: values.map .result
  | .matchedText start => [.position start]
  | .failed | .noMatch | .emptyArray | .literal .. | .charClass .. | .anyByte | .rule _
  | .failure _ => []

def Condition.reads : Condition → List Local
  | .failed slot | .matched slot => [.result slot]
  | .full array _ | .short array _ => [.result array]
  | .holds call => call.args.map .result

def Instruction.reads : Instruction → List Local
  | .assign _ operand => operand.reads
  | .rewind position => [.position position]
  | .free slot => [.result slot]
  | .append array item => [.result array, .result item]
  | .act call => call.args.map .result
  | .save _ | .mute | .unmute | .leave => []

/-- The cells that an operand can give. -/
def Operand.Gives (cell : Cell) : Operand → Prop
  | .failed | .failure _ => cell = .failed
  | .noMatch | .wrapped .. | .matchedText _ => cell = .value
  | .emptyArray => cell = .array 0
  | .literal .. | .charClass .. | .anyByte | .rule _ => cell = .failed ∨ cell = .value

/-- The answers that a condition can give. -/
def Condition.Says (s : Locals) (answer : Bool) : Condition → Prop
  | .failed slot => (s.results slot).Fails answer
  | .matched slot => (s.results slot).Fails (!answer)
  | .full array max => (s.results array).Counts (fun count => max.toNat ≤ count) answer
  | .short array min => (s.results array).Counts (fun count => count < min.toNat) answer
  | .holds _ => True

/-- A path through an instruction, by how it ends and with which locals. -/
def Instruction.Path (s : Locals) (ending : Ending) (s' : Locals) : Instruction → Prop
  | .assign slot operand => ending = .done ∧ ∃ cell, operand.Gives cell ∧ s' = s.assign slot cell
  | .save position => ending = .done ∧ s' = s.save position
  | .append array _ => ending = .done ∧ s' = s.assign array (s.results array).push
  | .leave => ending = .left ∧ s' = s
  | .rewind _ | .mute | .unmute | .free _ | .act _ => ending = .done ∧ s' = s

def Instruction.PathAll : List Instruction → Locals → Ending → Locals → Prop
  | [], s, ending, s' => ending = .done ∧ s' = s
  | first :: rest, s, ending, s' =>
    (∃ m, first.Path s .done m ∧ PathAll rest m ending s') ∨
      ending ≠ .done ∧ first.Path s ending s'

/-- Rounds of a loop that is not left. -/
abbrev Rounds (body : Locals → Ending → Locals → Prop) : Locals → Locals → Prop :=
  Relation.ReflTransGen fun s s' => body s .done s'

def Code.Path : Code → Locals → Ending → Locals → Prop
  | .skip, s, ending, s' | .remark _, s, ending, s' | .blank, s, ending, s' =>
    ending = .done ∧ s' = s
  | .seq first second, s, ending, s' =>
    (∃ m, first.Path s .done m ∧ second.Path m ending s') ∨
      ending ≠ .done ∧ first.Path s ending s'
  | .instr instruction, s, ending, s' => instruction.Path s ending s'
  | .guard condition instruction, s, ending, s' =>
    condition.Says s true ∧ instruction.Path s ending s' ∨
      condition.Says s false ∧ ending = .done ∧ s' = s
  | .branch condition yes no, s, ending, s' =>
    condition.Says s true ∧ Instruction.PathAll yes s ending s' ∨
      condition.Says s false ∧ Instruction.PathAll no s ending s'
  | .loop .repetition body, s, ending, s' =>
    ending = .done ∧ ∃ m, Rounds body.Path s m ∧ body.Path m .left s'
  | .loop .sequence body, s, ending, s' | .loop .choice body, s, ending, s' =>
    ending = .done ∧ (body.Path s .done s' ∨ body.Path s .left s')

def Condition.Strays (s : Locals) (l : Local) (condition : Condition) : Prop :=
  l ∈ condition.reads ∧ s.Unset l

def Instruction.Strays (s : Locals) (l : Local) (instruction : Instruction) : Prop :=
  l ∈ instruction.reads ∧ s.Unset l

def Instruction.StraysAll : List Instruction → Locals → Local → Prop
  | [], _, _ => False
  | first :: rest, s, l => first.Strays s l ∨ ∃ m, first.Path s .done m ∧ StraysAll rest m l

/-- Some path reads the local before anything is assigned to it. -/
def Code.Strays : Code → Locals → Local → Prop
  | .skip, _, _ | .remark _, _, _ | .blank, _, _ => False
  | .seq first second, s, l => first.Strays s l ∨ ∃ m, first.Path s .done m ∧ second.Strays m l
  | .instr instruction, s, l => instruction.Strays s l
  | .guard condition instruction, s, l =>
    condition.Strays s l ∨ condition.Says s true ∧ instruction.Strays s l
  | .branch condition yes no, s, l =>
    condition.Strays s l ∨ condition.Says s true ∧ Instruction.StraysAll yes s l ∨
      condition.Says s false ∧ Instruction.StraysAll no s l
  | .loop .repetition body, s, l => ∃ m, Rounds body.Path s m ∧ body.Strays m l
  | .loop .sequence body, s, l | .loop .choice body, s, l => body.Strays s l

attribute [grind =] Code.Path Code.Strays

attribute [simp] Locals.Unset Operand.reads Condition.reads Instruction.reads Operand.Gives
  Condition.Says Instruction.Path Instruction.PathAll Condition.Strays Instruction.Strays
  Instruction.StraysAll

namespace Code

@[simp] theorem path_append (first second : Code) (s : Locals) (ending : Ending) (s' : Locals) :
    (first ++ second).Path s ending s' ↔
      (∃ m, first.Path s .done m ∧ second.Path m ending s') ∨
        ending ≠ .done ∧ first.Path s ending s' := Iff.rfl

@[simp] theorem strays_append (first second : Code) (s : Locals) (l : Local) :
    (first ++ second).Strays s l ↔
      first.Strays s l ∨ ∃ m, first.Path s .done m ∧ second.Strays m l := Iff.rfl

@[simp] theorem path_skip (s : Locals) (ending : Ending) (s' : Locals) :
    skip.Path s ending s' ↔ ending = .done ∧ s' = s := Iff.rfl

@[simp] theorem path_remark (note : Remark) (s : Locals) (ending : Ending) (s' : Locals) :
    (remark note).Path s ending s' ↔ ending = .done ∧ s' = s := Iff.rfl

@[simp] theorem path_blank (s : Locals) (ending : Ending) (s' : Locals) :
    blank.Path s ending s' ↔ ending = .done ∧ s' = s := Iff.rfl

@[simp] theorem path_instr (instruction : Instruction) (s : Locals) (ending : Ending)
    (s' : Locals) :
    (instr instruction).Path s ending s' ↔ instruction.Path s ending s' := Iff.rfl

@[simp] theorem strays_skip (s : Locals) (l : Local) : ¬ skip.Strays s l := id

@[simp] theorem strays_remark (note : Remark) (s : Locals) (l : Local) :
    ¬ (remark note).Strays s l := id

@[simp] theorem strays_blank (s : Locals) (l : Local) : ¬ blank.Strays s l := id

@[simp] theorem strays_instr (instruction : Instruction) (s : Locals) (l : Local) :
    (instr instruction).Strays s l ↔ instruction.Strays s l := Iff.rfl

section Outcome

variable {s s' : Locals} {slot : Nat} {matched : Bool} (h : (s.results slot).Is matched)
include h

/-- A test of a result that is there goes by its outcome. -/
theorem path_branch_failed (yes no : List Instruction) (ending : Ending) :
    (branch (.failed slot) yes no).Path s ending s' ↔
      Instruction.PathAll (if matched then no else yes) s ending s' := by
  cases matched <;> simp [Path, h.fails_iff]

theorem path_branch_matched (yes no : List Instruction) (ending : Ending) :
    (branch (.matched slot) yes no).Path s ending s' ↔
      Instruction.PathAll (if matched then yes else no) s ending s' := by
  cases matched <;> simp [Path, h.fails_iff]

theorem path_guard_failed (instruction : Instruction) (ending : Ending) :
    (guard (.failed slot) instruction).Path s ending s' ↔
      if matched then ending = .done ∧ s' = s else instruction.Path s ending s' := by
  cases matched <;> simp [Path, h.fails_iff]

theorem path_guard_matched (instruction : Instruction) (ending : Ending) :
    (guard (.matched slot) instruction).Path s ending s' ↔
      if matched then instruction.Path s ending s' else ending = .done ∧ s' = s := by
  cases matched <;> simp [Path, h.fails_iff]

theorem strays_branch_failed (yes no : List Instruction) (l : Local) :
    (branch (.failed slot) yes no).Strays s l ↔
      Instruction.StraysAll (if matched then no else yes) s l := by
  have hset := h.ne_blank
  cases matched <;> simp [Code.Strays, h.fails_iff] <;> grind

theorem strays_branch_matched (yes no : List Instruction) (l : Local) :
    (branch (.matched slot) yes no).Strays s l ↔
      Instruction.StraysAll (if matched then yes else no) s l := by
  have hset := h.ne_blank
  cases matched <;> simp [Code.Strays, h.fails_iff] <;> grind

theorem strays_guard_failed (instruction : Instruction) (l : Local) :
    (guard (.failed slot) instruction).Strays s l ↔
      matched = false ∧ instruction.Strays s l := by
  have hset := h.ne_blank
  cases matched <;> simp [Code.Strays, h.fails_iff] <;> grind

theorem strays_guard_matched (instruction : Instruction) (l : Local) :
    (guard (.matched slot) instruction).Strays s l ↔
      matched = true ∧ instruction.Strays s l := by
  have hset := h.ne_blank
  cases matched <;> simp [Code.Strays, h.fails_iff] <;> grind

end Outcome

/-- The two have the same paths, and stray in the same places. -/
structure Alike (first second : Code) : Prop where
  path : ∀ s ending s', first.Path s ending s' ↔ second.Path s ending s'
  strays : ∀ s l, first.Strays s l ↔ second.Strays s l

theorem Alike.trans {a b c : Code} (h : Alike a b) (h' : Alike b c) : Alike a c :=
  ⟨fun s ending s' => (h.path s ending s').trans (h'.path s ending s'),
    fun s l => (h.strays s l).trans (h'.strays s l)⟩

theorem Alike.append_left (a : Code) {b c : Code} (h : Alike b c) : Alike (a ++ b) (a ++ c) := by
  refine ⟨?_, ?_⟩
  · intro s ending s'
    simp only [path_append, h.path]
  · intro s l
    simp only [strays_append, h.strays]

theorem alike_append_assoc (a b c : Code) : Alike ((a ++ b) ++ c) (a ++ (b ++ c)) := by
  constructor
  · intro s ending s'
    simp only [path_append]
    grind
  · intro s l
    simp only [strays_append, path_append]
    grind

end Code

end Backtrack
