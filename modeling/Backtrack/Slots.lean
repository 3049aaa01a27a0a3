/-!
# Stacks of local variables

A generated function keeps its intermediate values in numbered locals. A slot stack tracks how
many of them are live while the function is generated, and how many have to be declared once it
is done.
-/

namespace Backtrack

set_option autoImplicit false

/-- A numbered local variable. -/
structure Slot where
  stem : String
  index : Nat
  deriving DecidableEq, Repr

namespace Slot

def name (slot : Slot) : String := slot.stem ++ toString slot.index

def resultStem : String := "r"

def positionStem : String := "p"

/-- The local for an intermediate match result. -/
def result (index : Nat) : Slot := ⟨resultStem, index⟩

/-- The local for a saved input position. -/
def position (index : Nat) : Slot := ⟨positionStem, index⟩

def assignment (slot : Slot) (expr : String) : String := slot.name ++ " = " ++ expr ++ ";"

end Slot

/-- A use of a slot stack that its live slots do not allow. -/
inductive StackError where
  | underflow (stack : String) (requested live : Nat)
  | negativeIndex (stack : String) (index : Int)
  deriving DecidableEq, Repr

namespace StackError

def message : StackError → String
  | .underflow stack requested live =>
    stack ++ " stack underflow: requested " ++ toString requested ++ ", " ++ toString live ++
      " live"
  | .negativeIndex stack index =>
    stack ++ " stack index " ++ toString index ++ " is negative"

end StackError

structure SlotStack where
  stem : String
  type : String
  /-- How many slots are live: the slots below this number. -/
  live : Nat := 0
  /-- How many slots were ever live at once. -/
  peak : Nat := 0
  deriving DecidableEq, Repr

namespace SlotStack

def results : SlotStack := { stem := Slot.resultStem, type := "ResultPtr" }

def positions : SlotStack := { stem := Slot.positionStem, type := "struct Location" }

/-- The index of the topmost live slot, minus one when there is none. -/
def top (stack : SlotStack) : Int := (stack.live : Int) - 1

/-- The highest index that was ever topmost. -/
def maxTop (stack : SlotStack) : Int := (stack.peak : Int) - 1

def slot (stack : SlotStack) (index : Nat) : Slot := ⟨stack.stem, index⟩

/-- Makes the next slot live. -/
def alloc (stack : SlotStack) : Nat × SlotStack :=
  (stack.live, { stack with live := stack.live + 1, peak := max stack.peak (stack.live + 1) })

def underflow (stack : SlotStack) (requested : Nat) : StackError :=
  .underflow stack.stem requested stack.live

/-- Another number of live slots was expected. -/
def mismatch (stack : SlotStack) (expected : Nat) : StackError :=
  .underflow stack.stem expected stack.live

/-- Releases the topmost slot. -/
def pop (stack : SlotStack) : Except StackError (Nat × SlotStack) :=
  match stack.live with
  | 0 => .error (stack.underflow 1)
  | n + 1 => .ok (n, { stack with live := n })

/-- Releases the `n` topmost slots, given from the lowest up. -/
def popMany (stack : SlotStack) (n : Nat) : Except StackError (List Nat × SlotStack) :=
  if stack.live < n then .error (stack.underflow n)
  else .ok (List.range' (stack.live - n) n, { stack with live := stack.live - n })

/-- Releases the topmost slot and makes it live again, to be assigned anew. -/
def replace (stack : SlotStack) : Except StackError (Nat × SlotStack) := do
  let (_, released) ← stack.pop
  return released.alloc

/-- The slot `k` below the topmost one. -/
def below (stack : SlotStack) (k : Nat) : Except StackError Nat :=
  if k < stack.live then .ok (stack.live - 1 - k)
  else .error (.negativeIndex stack.stem (stack.top - k))

/-- The live slots from an index on. -/
def liveFrom (stack : SlotStack) (start : Int) : Except StackError (List Nat) :=
  match start with
  | .ofNat n => .ok (List.range' n (stack.live - n))
  | .negSucc _ => .error (.negativeIndex stack.stem start)

/-- The declaration of every slot that was ever live. -/
def declaration? (stack : SlotStack) : Option String :=
  if stack.peak = 0 then none
  else some (stack.type ++ " " ++
    ", ".intercalate ((List.range stack.peak).map fun i => (stack.slot i).name) ++ ";")

end SlotStack

end Backtrack
