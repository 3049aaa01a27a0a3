import Backtrack.Proofs.Generation.Lowering
import Backtrack.Proofs.Execution.Machine

/-!
# Attempts to match

What an expression says of the input, without code and without slots: the first alternative that
matches is taken, repetitions are greedy, and a failure takes back what was read. Next to the value
of a match an attempt gives the labels in sight after it and the calls made on the way.
-/

namespace Backtrack

set_option autoImplicit false

variable {Pos α β : Type}

/-- What a label stands for. -/
inductive Binding (Pos : Type) where
  /-- The labelled expression is not done yet. -/
  | pending
  /-- The labelled expression matched, and the sequence it stands in is not done yet. -/
  | held (value : Value Pos)
  /-- The sequence that the labelled expression stands in is done. -/
  | released (value : Value Pos)

namespace Binding

/-- The labelled match, if there is one yet. -/
def value? : Binding Pos → Option (Value Pos)
  | .pending => none
  | .held value | .released value => some value

def release : Binding Pos → Binding Pos
  | .held value => .released value
  | other => other

end Binding

abbrev Bindings (Pos : Type) := OrderedMap String (Binding Pos)

/-- Releases the given labels. -/
def Bindings.release (labels : List String) (bindings : Bindings Pos) : Bindings Pos :=
  ⟨bindings.entries.map fun (label, binding) =>
    (label, if label ∈ labels then binding.release else binding)⟩

/-- How an attempt ends. -/
inductive Outcome (Pos α : Type) where
  /-- Cut off inside a repetition. -/
  | cut
  | failed
  | matched (value : α) (stop : Pos) (bindings : Bindings Pos)

structure Attempt (Pos α : Type) where
  outcome : Outcome Pos α
  events : List (Int × Event (Binding Pos))

namespace Attempt

def matched (value : α) (stop : Pos) (bindings : Bindings Pos) : Attempt Pos α :=
  ⟨.matched value stop bindings, []⟩

def failed : Attempt Pos α := ⟨.failed, []⟩

/-- Goes on after a match. -/
def andThen (attempt : Attempt Pos α) (next : α → Pos → Bindings Pos → Attempt Pos β) :
    Attempt Pos β :=
  match attempt.outcome with
  | .cut => ⟨.cut, attempt.events⟩
  | .failed => ⟨.failed, attempt.events⟩
  | .matched value stop bindings =>
    let rest := next value stop bindings
    ⟨rest.outcome, attempt.events ++ rest.events⟩

/-- Goes on after a failure. -/
def orElse (attempt next : Attempt Pos α) : Attempt Pos α :=
  match attempt.outcome with
  | .failed => ⟨next.outcome, attempt.events ++ next.events⟩
  | _ => attempt

/-- Keeps a match, with other labels in sight. -/
def inScope (attempt : Attempt Pos α) (bindings : Bindings Pos) : Attempt Pos α :=
  attempt.andThen fun value stop _ => matched value stop bindings

/-- Turns a match into a match of nothing at `start`, and a failure into itself or, negated, the
other way round. -/
def look (negated : Bool) (start : Pos) (bindings : Bindings Pos)
    (attempt : Attempt Pos (Value Pos)) : Attempt Pos (Value Pos) :=
  match attempt.outcome with
  | .cut => attempt
  | .failed =>
    ⟨if negated then .matched .nil start bindings else .failed, attempt.events⟩
  | .matched .. =>
    ⟨if negated then .failed else .matched .nil start bindings, attempt.events⟩

/-- Reads items until one fails or there are as many as may be, in at most `n` rounds. -/
def gather (most : Option UInt32) (bindings : Bindings Pos)
    (item : Pos → Attempt Pos (Value Pos)) :
    Nat → List (Value Pos) → Pos → Attempt Pos (List (Value Pos))
  | 0, _, _ => ⟨.cut, []⟩
  | n + 1, items, p =>
    if most.any fun max => max.toNat ≤ items.length then matched items p bindings
    else
      match item p with
      | ⟨.cut, events⟩ => ⟨.cut, events⟩
      | ⟨.failed, events⟩ => ⟨.matched items p bindings, events⟩
      | ⟨.matched value stop _, events⟩ =>
        let rest := gather most bindings item n (items ++ [value]) stop
        ⟨rest.outcome, events ++ rest.events⟩

end Attempt

namespace Event

variable {Arg : Type}

/-- The call of an action, if there is one. -/
def ofAction (level : Int) (action : Option UserCode) (bindings : Bindings Pos) :
    List (Int × Event (Binding Pos)) :=
  action.toList.map fun code =>
    (level, .acted (Session.functionOf code bindings.keys) bindings.values)

end Event

mutual

/-- The labels that an expression leaves in sight. -/
def Expr.exports : Expr → List String
  | .named _ _ inner => inner.exports
  | .sequence _ elements => Expr.exportsAll elements
  | .labeled _ label _ => [label]
  | .choice .. | .text .. | .optional .. | .repeated .. | .lookahead .. | .predicate ..
  | .action .. | .ruleRef .. | .literal .. | .charClass .. | .any .. => []

def Expr.exportsAll : List Expr → List String
  | [] => []
  | first :: rest => first.exports ++ Expr.exportsAll rest

end

/-- An attempt with a matcher. -/
def Runtime.attempt (rt : Runtime Pos) (level : Int) (bindings : Bindings Pos) (matcher : Matcher)
    (p : Pos) : Attempt Pos (Value Pos) :=
  ⟨match rt.scan matcher p with
    | none => .failed
    | some (value, stop) => .matched value stop bindings,
    [(level, .scanned matcher)]⟩

section Attempts

variable (rt : Runtime Pos) (n : Nat)

mutual

/-- An attempt with an expression at a position: at a level of silence, with labels in sight, and
with the action that a sequence has to call before it is done. -/
def Expr.attempt (level : Int) (bindings : Bindings Pos) (action : Option UserCode) :
    Expr → Pos → Attempt Pos (Value Pos)
  | .named _ name inner, p =>
    (inner.attempt (level + 1) bindings action p).orElse
      ⟨.failed, [(level, .reported (Constants.expected .other (Bytes.ofString name)))]⟩
  | .choice _ alternatives, p => Expr.attemptFirst level bindings alternatives p
  | .sequence _ elements, p =>
    (Expr.attemptAll level bindings elements p).andThen fun values stop inside =>
      ⟨.matched (.wrapped p stop (values.map some)) stop
        (inside.release (Expr.exportsAll elements)), Event.ofAction level action inside⟩
  | .labeled _ label inner, p =>
    (inner.attempt level (bindings.insert label .pending) none p).andThen fun value stop _ =>
      .matched value stop (bindings.insert label (.held value))
  | .text _ inner, p =>
    (inner.attempt level bindings none p).andThen fun _ stop _ =>
      .matched (.text p stop) stop bindings
  | .optional _ inner, p =>
    ((inner.attempt level bindings none p).inScope bindings).orElse (.matched .nil p bindings)
  | .repeated _ quantifier inner, p =>
    (Attempt.gather quantifier.most bindings (inner.attempt level bindings none) n [] p).andThen
      fun items stop _ =>
        if items.length < quantifier.least.toNat then .failed
        else .matched (.array (items.map some)) stop bindings
  | .lookahead _ negated inner, p =>
    (inner.attempt (level + 1) bindings none p).look negated p bindings
  | .predicate _ negated code, p =>
    let function := Session.functionOf code bindings.keys
    ⟨if rt.holds function p = negated then .failed else .matched .nil p bindings,
      [(level, .asked function bindings.values)]⟩
  | .action _ code inner, p =>
    if inner.isSequence then (inner.attempt level bindings (some code) p).inScope bindings
    else
      (inner.attempt level bindings none p).andThen fun value stop inside =>
        ⟨.matched value stop bindings, Event.ofAction level (some code) inside⟩
  | .ruleRef _ name, p => rt.attempt level bindings (.rule name) p
  | .literal _ value ignoreCase, p =>
    rt.attempt level bindings (.literal (Constants.literal (Bytes.ofString value))
      (Constants.expected .literal (Bytes.ofString (Expr.literalDescription value ignoreCase)))) p
  | .charClass _ cls, p =>
    rt.attempt level bindings (.charClass (Constants.charClass cls.byteSingles cls.byteRanges)
      (Constants.expected .charClass (Bytes.ofString cls.rawText)) cls.inverted) p
  | .any _, p => rt.attempt level bindings .anyByte p

/-- Elements one after another; the labels of each are in sight after it. -/
def Expr.attemptAll (level : Int) (bindings : Bindings Pos) :
    List Expr → Pos → Attempt Pos (List (Value Pos))
  | [], p => .matched [] p bindings
  | first :: rest, p =>
    (first.attempt level bindings none p).andThen fun value stop inside =>
      (Expr.attemptAll level inside rest stop).andThen fun values stop inside =>
        .matched (value :: values) stop inside

/-- The first alternative that matches. -/
def Expr.attemptFirst (level : Int) (bindings : Bindings Pos) :
    List Expr → Pos → Attempt Pos (Value Pos)
  | [], _ => .failed
  | first :: rest, p =>
    ((first.attempt level bindings none p).inScope bindings).orElse
      (Expr.attemptFirst level bindings rest p)

end

end Attempts

end Backtrack
