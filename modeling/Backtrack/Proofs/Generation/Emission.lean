import Backtrack.Proofs.Locals.Uses

/-!
# Emission of code

Generation as it goes on beside its output: every line is added as soon as it is known, at the
depth that the output has then, and only the first and the last line of a loop change that depth.
To generate first and to print afterwards comes to the same lines.
-/

namespace Backtrack

set_option autoImplicit false

open Code Gen

/-- The output with the lines of code added to it. -/
def Lines.print (out : Lines) (code : Code) : Lines :=
  { out with toList := out.toList ++ code.lines out.depth }

/-- A part of generation that adds to the output. -/
abbrev Emit := StateT Lines Gen

namespace Emit

/-- Adds the lines of code without loops at the depth of the output. What is inside a branch is set
in by hand. -/
def put (code : Code) : Emit PUnit := modify (·.extend (code.lines 0))

def enter (purpose : Loop) : Emit PUnit := modify (·.enter purpose.opening)

def leave (purpose : Loop) : Emit PUnit := modify (·.leave purpose.closing)

/-- Adds code that is known as a whole. -/
def whole (x : Gen Code) : Emit PUnit := do put (← x)

/-- Assigns to a new result slot. -/
def assign (operand : Operand) : Emit PUnit := do put (instr (.assign (← newResult) operand))

/-- Saves the input position in a new slot. -/
def save : Emit Nat := do
  let start ← newPosition
  put (instr (.save start))
  return start

def named (name : String) (inner : Emit Env) : Emit Env := do
  let expected ← Gen.expected .other name
  put (instr .mute)
  let env ← inner
  put (instr .unmute)
  let slot ← topResult
  let assign := Instruction.assign (← replaceResult) (.failure expected)
  put (branch (.failed slot) [assign] [])
  return env

def text (inner : Emit PUnit) : Emit PUnit := do
  let start ← save
  inner
  releasePosition start
  let slot ← topResult
  let assign := Instruction.assign (← replaceResult) (.matchedText start)
  put (branch (.matched slot) [.free slot, assign] [])

def action (code : UserCode) (inner : Emit Env) : Emit PUnit := do
  let start ← save
  let env ← inner
  let call ← Gen.action code env
  let slot ← topResult
  -- The position is only released behind the last line that is in its reach.
  put (branch (.matched slot) [.act call] [])
  releasePosition start

def optional (inner : Emit PUnit) : Emit PUnit := do
  inner
  let slot ← topResult
  let assign := Instruction.assign (← replaceResult) .noMatch
  put (guard (.failed slot) assign)

def lookahead (negated : Bool) (inner : Emit PUnit) : Emit PUnit := do
  let start ← save
  put (instr .mute)
  inner
  put (instr .unmute)
  releasePosition start
  let slot ← topResult
  let matched := Instruction.assign (← replaceResult) .noMatch
  if negated then
    let failed := Instruction.assign (← replaceResult) .failed
    put (branch (.failed slot) [.rewind start, matched] [.free slot, .rewind start, failed])
  else
    put (branch (.matched slot) [.free slot, .rewind start, matched] [])

def repeated (quantifier : Quantifier) (inner : Emit PUnit) : Emit PUnit := do
  let start? ← if 0 < quantifier.least then some <$> save else pure none
  assign .emptyArray
  let array ← topResult
  enter .repetition
  match quantifier.most with
    | some max => put (guard (.full array max) .leave)
    | none => pure ⟨⟩
  inner
  let item ← popResult
  put (guard (.failed item) .leave)
  put (instr (.append array item))
  leave .repetition
  match start? with
  | some start => whole (Generate.enough quantifier.least array start)
  | none => pure ⟨⟩

def element (number : Nat) (slot start : Nat) (inner : Emit Env) : Emit Env := do
  put (remark (.element number))
  let env ← inner
  let failed ← topResult
  let done ← resultsFrom slot
  let undo := done.reverse.tail.map Instruction.free ++
    [.rewind start, .assign slot .failed, .leave]
  put (branch (.failed failed) undo [])
  put blank
  return env

def sequence (scope : Scope) (count : Nat) (elements : Nat → Emit Env) : Emit Env := do
  let start ← save
  enter .sequence
  let env ← elements start
  let values ← popResults count
  releasePosition start
  match scope.action with
    | some action => whole ((instr <| .act ·) <$> Gen.action action env)
    | none => pure ⟨⟩
  assign (.wrapped start values)
  leave .sequence
  return env

def alternative (number : Nat) (inner : Emit PUnit) : Emit PUnit := do
  put (remark (.alternative number))
  inner
  let slot ← popResult
  put (guard (.matched slot) .leave)
  put blank

/-- A call for the lines of an expression, in step with its scope. -/
def inStep {α : Type} (scope : Scope) (p : Emit α) : Emit α := do
  assertLive Workspace.results scope.slot
  let out ← p
  assertLive Workspace.results (scope.slot + 1)
  return out

end Emit

open Emit

mutual

/-- Adds the lines of an expression, and gives the labels in sight after it. -/
def Expr.emit (cx : Context) (scope : Scope) (e : Expr) : Emit Env :=
  Emit.inStep scope <| match e with
  | .named _ name inner => Emit.named name (inner.emit cx scope)
  | .choice _ [] => do
    Emit.assign .failed
    return scope.env
  | .choice _ alternatives => do
    Emit.enter .choice
    Expr.emitAlternatives cx scope 1 alternatives
    Emit.leave .choice
    return scope.env
  | .sequence _ elements =>
    Emit.sequence scope elements.length fun start =>
      Expr.emitElements cx scope.slot start 0 scope.env elements
  | .labeled _ label inner => do
    let bound := scope.bind label
    discard (inner.emit cx (bound.branch bound.slot))
    return bound.env
  | .text _ inner => do
    Emit.text (discard (inner.emit cx (scope.branch scope.slot)))
    return scope.env
  | .optional _ inner => do
    Emit.optional (discard (inner.emit cx (scope.branch scope.slot)))
    return scope.env
  | .repeated _ quantifier inner => do
    Emit.repeated quantifier (discard (inner.emit cx (scope.branch (scope.slot + 1))))
    return scope.env
  | .lookahead _ negated inner => do
    Emit.lookahead negated (discard (inner.emit cx (scope.branch scope.slot)))
    return scope.env
  | .predicate _ negated code => do
    Emit.whole (Generate.predicate negated code scope.env)
    return scope.env
  | .action _ code inner => do
    if inner.isSequence then
      discard (inner.emit cx (scope.withAction code))
      return scope.env
    else
      Emit.action code (inner.emit cx (scope.branch scope.slot))
      return scope.env
  | .ruleRef _ name => do
    Emit.assign (.rule name)
    return scope.env
  | .literal region value ignoreCase => do
    Emit.whole (Generate.literal cx region value ignoreCase)
    return scope.env
  | .charClass region cls => do
    Emit.whole (Generate.charClass cx region cls)
    return scope.env
  | .any _ => do
    Emit.assign .anyByte
    return scope.env

def Expr.emitElements (cx : Context) (slot start done : Nat) (env : Env) : List Expr → Emit Env
  | [] => pure env
  | first :: rest => do
    let env ← Emit.element (done + 1) slot start (first.emit cx ⟨slot + done, env, none⟩)
    Expr.emitElements cx slot start (done + 1) env rest

def Expr.emitAlternatives (cx : Context) (scope : Scope) (number : Nat) : List Expr → Emit PUnit
  | [] => pure ⟨⟩
  | [last] => do
    put (remark (.alternative number))
    discard (last.emit cx (scope.branch scope.slot))
  | first :: second :: rest => do
    Emit.alternative number (discard (first.emit cx (scope.branch scope.slot)))
    Expr.emitAlternatives cx scope (number + 1) (second :: rest)

end

namespace Lines

variable (out : Lines)

@[simp] theorem extend_lines (code : Code) : out.extend (code.lines 0) = out.print code := by
  rw [extend, print, code.map_placed_lines, Nat.zero_add]

@[simp] theorem print_skip : out.print .skip = out := by
  rw [print, Code.lines, List.append_nil]

@[simp] theorem print_append (first second : Code) :
    out.print (first ++ second) = (out.print first).print second := by
  change out.print (.seq first second) = _
  rw [print, print, print, Code.lines, List.append_assoc]

@[simp] theorem print_all_nil : out.print (all []) = out := out.print_skip

@[simp] theorem print_all_cons (part : Code) (rest : List Code) :
    out.print (all (part :: rest)) = (out.print part).print (all rest) :=
  out.print_append part (all rest)

@[simp] theorem print_loop (purpose : Loop) (body : Code) :
    out.print (.loop purpose body) =
      ((out.enter purpose.opening).print body).leave purpose.closing := by
  simp [print, Code.lines, enter, leave, push, indent, dedent]

end Lines

/-- What is emitted is what is generated, printed. -/
def Emits {α : Type} (p : Emit α) (x : Gen (Code × α)) : Prop :=
  ∀ out, p out = (fun r => (r.2, out.print r.1)) <$> x

/-- The same, where nothing but lines is given. -/
def Writes (p : Emit PUnit) (x : Gen Code) : Prop :=
  ∀ out, p out = (fun code => (⟨⟩, out.print code)) <$> x

namespace Emit

section Apply

variable {α β : Type} (out : Lines)

@[simp] theorem bind_apply (p : Emit α) (f : α → Emit β) :
    (p >>= f) out = p out >>= fun r => f r.1 r.2 := rfl

@[simp] theorem map_apply (f : α → β) (p : Emit α) :
    (f <$> p) out = (fun r => (f r.1, r.2)) <$> p out := StateT.run_map f p out

@[simp] theorem pure_apply (a : α) : (pure a : Emit α) out = pure (a, out) := rfl

@[simp] theorem lift_apply (x : Gen α) :
    (liftM x : Emit α) out = (fun a => (a, out)) <$> x := rfl

@[simp] theorem put_apply (code : Code) : put code out = pure (⟨⟩, out.print code) := by
  rw [← out.extend_lines]
  rfl

@[simp] theorem enter_apply (purpose : Loop) :
    enter purpose out = pure (⟨⟩, out.enter purpose.opening) := rfl

@[simp] theorem leave_apply (purpose : Loop) :
    leave purpose out = pure (⟨⟩, out.leave purpose.closing) := rfl

@[simp] theorem whole_apply (x : Gen Code) :
    whole x out = (fun code => (⟨⟩, out.print code)) <$> x := by
  simp [whole]

@[simp] theorem assign_apply (operand : Operand) : assign operand out =
    (fun slot => (⟨⟩, out.print (instr (.assign slot operand)))) <$> newResult := by
  simp [assign]

@[simp] theorem save_apply : save out =
    (fun start => (start, out.print (instr (.save start)))) <$> newPosition := by
  simp [save]

end Apply

-- To add a line is no step of generation, so it makes no difference whether that is done at once or
-- after the steps that follow. On both sides only the steps are left, and the same output.
variable {p : Emit Env} {x : Gen (Code × Env)} {q : Emit PUnit} {y : Gen Code}

theorem writes_whole (y : Gen Code) : Writes (whole y) y := fun out => whole_apply out y

theorem emits_assign (operand : Operand) (env : Env) :
    Emits (do assign operand; return env)
      (do return (instr (.assign (← newResult) operand), env)) := by
  intro out
  simp

theorem writes_discard (h : Emits p x) : Writes (discard p) (Prod.fst <$> x) := by
  intro out
  change (p out >>= fun r => pure (PUnit.unit, r.2)) = _
  simp [h _]

theorem emits_return (h : Writes q y) (env : Env) :
    Emits (do q; return env) (do return (← y, env)) := by
  intro out
  simp [h _]

theorem emits_inStep (h : Emits p x) (scope : Scope) :
    Emits (Emit.inStep scope p) (Gen.inStep scope x) := by
  intro out
  simp [Emit.inStep, Gen.inStep, h _]

theorem emits_named (h : Emits p x) (name : String) :
    Emits (Emit.named name p) (Generate.named name x) := by
  intro out
  simp [Emit.named, Generate.named, h _]

theorem writes_text (h : Writes q y) : Writes (Emit.text q) (Generate.text y) := by
  intro out
  simp [Emit.text, Generate.text, h _]

theorem writes_action (h : Emits p x) (code : UserCode) :
    Writes (Emit.action code p) (Generate.action code x) := by
  intro out
  simp [Emit.action, Generate.action, h _]

theorem writes_optional (h : Writes q y) : Writes (Emit.optional q) (Generate.optional y) := by
  intro out
  simp [Emit.optional, Generate.optional, h _]

theorem writes_lookahead (h : Writes q y) (negated : Bool) :
    Writes (Emit.lookahead negated q) (Generate.lookahead negated y) := by
  intro out
  cases negated <;> simp [Emit.lookahead, Generate.lookahead, h _]

theorem writes_repeated (h : Writes q y) (quantifier : Quantifier) :
    Writes (Emit.repeated quantifier q) (Generate.repeated quantifier y) := by
  intro out
  by_cases hleast : 0 < quantifier.least <;> cases hmost : quantifier.most <;>
    simp [Emit.repeated, Generate.repeated, h _, hleast, hmost]

theorem emits_element (h : Emits p x) (number slot start : Nat) :
    Emits (Emit.element number slot start p) (Generate.element number slot start x) := by
  intro out
  simp [Emit.element, Generate.element, h _]

theorem emits_sequence {p : Nat → Emit Env} {x : Nat → Gen (Code × Env)}
    (h : ∀ start, Emits (p start) (x start)) (scope : Scope) (count : Nat) :
    Emits (Emit.sequence scope count p) (Generate.sequence scope count x) := by
  intro out
  cases haction : scope.action <;>
    simp [Emit.sequence, Generate.sequence, h _ _, haction]

theorem writes_alternative (h : Writes q y) (number : Nat) :
    Writes (Emit.alternative number q) (Generate.alternative number y) := by
  intro out
  simp [Emit.alternative, Generate.alternative, h _]

end Emit

namespace Expr

open Emit

/-- The lines of an expression are those of its code. -/
def Emitted (cx : Context) (e : Expr) : Prop :=
  ∀ scope, Emits (e.emit cx scope) (e.generate cx scope)

theorem Emitted.of_generate {cx : Context} {e : Expr} (h : e.Emitted cx) {scope : Scope}
    {w w' : Workspace} {code : Code} {env : Env}
    (hok : e.generate cx scope w = .ok (code, env) w') (out : Lines) :
    e.emit cx scope out w = .ok (env, out.print code) w' := by
  rw [h scope out]
  change (e.generate cx scope).map _ w = _
  simp only [EStateM.map, hok]

/-- Nothing else is emitted than what is generated. -/
theorem Emitted.of_emit {cx : Context} {e : Expr} (h : e.Emitted cx) {scope : Scope}
    {w w' : Workspace} {env : Env} {out out' : Lines}
    (hok : e.emit cx scope out w = .ok (env, out') w') :
    ∃ code, e.generate cx scope w = .ok (code, env) w' ∧ out' = out.print code := by
  rw [h scope out] at hok
  change (e.generate cx scope).map _ w = _ at hok
  simp only [EStateM.map] at hok
  split at hok
  · cases hok
    exact ⟨_, ‹_›, rfl⟩
  · cases hok

theorem emitted_elements {cx : Context} {elements : List Expr} (h : ∀ e ∈ elements, e.Emitted cx)
    (slot start done : Nat) (env : Env) :
    Emits (emitElements cx slot start done env elements)
      (generateElements cx slot start done env elements) := by
  induction elements generalizing done env with
  | nil =>
    intro out
    simp [emitElements, generateElements]
  | cons first rest ih =>
    obtain ⟨hfirst, hrest⟩ := List.forall_mem_cons.mp h
    have helement := emits_element (hfirst ⟨slot + done, env, none⟩) (done + 1) slot start
    intro out
    simp [emitElements, generateElements, helement _, ih hrest _ _ _]

theorem emitted_alternatives {cx : Context} {alternatives : List Expr}
    (h : ∀ e ∈ alternatives, e.Emitted cx) (scope : Scope) (number : Nat) :
    Writes (emitAlternatives cx scope number alternatives)
      (generateAlternatives cx scope number alternatives) := by
  induction alternatives generalizing number with
  | nil =>
    intro out
    simp [emitAlternatives, generateAlternatives]
  | cons first rest ih =>
    obtain ⟨hfirst, hrest⟩ := List.forall_mem_cons.mp h
    have hwrites := writes_discard (hfirst (scope.branch scope.slot))
    intro out
    cases rest with
    | nil =>
      simp [emitAlternatives, generateAlternatives, hwrites _]
    | cons second rest =>
      have halternative := writes_alternative hwrites number
      simp [emitAlternatives, generateAlternatives, halternative _, ih hrest _ _]

theorem emitted (cx : Context) (e : Expr) : e.Emitted cx := by
  induction e using Expr.induction with
  | named region name inner ih =>
    intro scope
    exact emits_inStep (emits_named (ih scope) name) scope
  | choice region alternatives ih =>
    intro scope
    cases alternatives with
    | nil => exact emits_inStep (emits_assign .failed scope.env) scope
    | cons first rest =>
      refine emits_inStep ?_ scope
      intro out
      simp [emitted_alternatives ih scope 1 _]
  | sequence region elements ih =>
    intro scope
    exact emits_inStep (emits_sequence
      (fun start => emitted_elements ih scope.slot start 0 scope.env) scope elements.length) scope
  | labeled region label inner ih =>
    intro scope
    have hinner := writes_discard (ih ((scope.bind label).branch (scope.bind label).slot))
    refine emits_inStep ?_ scope
    intro out
    simp [hinner _]
  | text region inner ih =>
    intro scope
    have hinner := writes_discard (ih (scope.branch scope.slot))
    exact emits_inStep (emits_return (writes_text hinner) scope.env) scope
  | optional region inner ih =>
    intro scope
    have hinner := writes_discard (ih (scope.branch scope.slot))
    exact emits_inStep (emits_return (writes_optional hinner) scope.env) scope
  | repeated region quantifier inner ih =>
    intro scope
    have hinner := writes_discard (ih (scope.branch (scope.slot + 1)))
    exact emits_inStep (emits_return (writes_repeated hinner quantifier) scope.env) scope
  | lookahead region negated inner ih =>
    intro scope
    have hinner := writes_discard (ih (scope.branch scope.slot))
    exact emits_inStep (emits_return (writes_lookahead hinner negated) scope.env) scope
  | predicate region negated code =>
    intro scope
    exact emits_inStep (emits_return (writes_whole _) scope.env) scope
  | action region code inner ih =>
    intro scope
    refine emits_inStep ?_ scope
    by_cases hseq : inner.isSequence = true
    · rw [if_pos hseq, if_pos hseq]
      exact emits_return (writes_discard (ih (scope.withAction code))) scope.env
    · rw [if_neg hseq, if_neg hseq]
      exact emits_return (writes_action (ih (scope.branch scope.slot)) code) scope.env
  | ruleRef region name => exact fun scope => emits_inStep (emits_assign _ scope.env) scope
  | literal region value ignoreCase =>
    intro scope
    exact emits_inStep (emits_return (writes_whole _) scope.env) scope
  | charClass region cls =>
    intro scope
    exact emits_inStep (emits_return (writes_whole _) scope.env) scope
  | any region => exact fun scope => emits_inStep (emits_assign _ scope.env) scope

end Expr

end Backtrack
