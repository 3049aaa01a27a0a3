import Backtrack.Generate.Expr
import Backtrack.Proofs.Generation.Ensures

/-!
# The code of an expression in closed form

Generation threads two slot stacks and five tables through the expression. In step with its scope
it comes to a plain function: the code depends on the expression, on the scope, on how many position
slots are live and on the numbers in the tables, which may be those of any later session.
-/

namespace Backtrack

set_option autoImplicit false

open Code

/-- Induction over expressions; the expressions in a list come with their membership. -/
@[elab_as_elim]
theorem Expr.induction {motive : Expr → Prop}
    (named : ∀ region name inner, motive inner → motive (.named region name inner))
    (choice : ∀ region alternatives, (∀ e ∈ alternatives, motive e) →
      motive (.choice region alternatives))
    (sequence : ∀ region elements, (∀ e ∈ elements, motive e) →
      motive (.sequence region elements))
    (labeled : ∀ region label inner, motive inner → motive (.labeled region label inner))
    (text : ∀ region inner, motive inner → motive (.text region inner))
    (optional : ∀ region inner, motive inner → motive (.optional region inner))
    (repeated : ∀ region quantifier inner, motive inner →
      motive (.repeated region quantifier inner))
    (lookahead : ∀ region negated inner, motive inner → motive (.lookahead region negated inner))
    (predicate : ∀ region negated code, motive (.predicate region negated code))
    (action : ∀ region code inner, motive inner → motive (.action region code inner))
    (ruleRef : ∀ region name, motive (.ruleRef region name))
    (literal : ∀ region value ignoreCase, motive (.literal region value ignoreCase))
    (charClass : ∀ region cls, motive (.charClass region cls))
    (any : ∀ region, motive (.any region)) (e : Expr) : motive e :=
  @Expr.rec motive (fun es => ∀ e ∈ es, motive e)
    named choice sequence labeled text optional repeated lookahead predicate action ruleRef
    literal charClass any (fun _ h => absurd h List.not_mem_nil)
    (fun _ _ hfirst hrest => List.forall_mem_cons.mpr ⟨hfirst, hrest⟩) e

namespace Template

def predicate (negated : Bool) (slot : Nat) (call : Call) : Code :=
  if negated then branch (.holds call) [.assign slot .failed] [.assign slot .noMatch]
  else branch (.holds call) [.assign slot .noMatch] [.assign slot .failed]

def named (slot expected : Nat) (inner : Code) : Code :=
  all [instr .mute, inner, instr .unmute,
    branch (.failed slot) [.assign slot (.failure expected)] []]

def text (slot start : Nat) (inner : Code) : Code :=
  all [instr (.save start), inner,
    branch (.matched slot) [.free slot, .assign slot (.matchedText start)] []]

def action (slot start : Nat) (call : Call) (inner : Code) : Code :=
  all [instr (.save start), inner, branch (.matched slot) [.act call] []]

def optional (slot : Nat) (inner : Code) : Code :=
  all [inner, guard (.failed slot) (.assign slot .noMatch)]

def lookahead (negated : Bool) (slot start : Nat) (inner : Code) : Code :=
  all [instr (.save start), instr .mute, inner, instr .unmute] ++
    if negated then branch (.failed slot) [.rewind start, .assign slot .noMatch]
      [.free slot, .rewind start, .assign slot .failed]
    else branch (.matched slot) [.free slot, .rewind start, .assign slot .noMatch] []

/-- An array of so many items takes no more. -/
def isFull (most : Option UInt32) (count : Nat) : Bool := most.any fun max => max.toNat ≤ count

/-- One round of a repetition: the array is in `slot`, the item goes above it. -/
def round (most : Option UInt32) (slot : Nat) (inner : Code) : Code :=
  all [
    match most with
      | some max => guard (.full slot max) .leave
      | none => skip,
    inner,
    guard (.failed (slot + 1)) .leave,
    instr (.append slot (slot + 1))]

def gather (most : Option UInt32) (slot : Nat) (inner : Code) : Code :=
  all [instr (.assign slot .emptyArray), loop .repetition (round most slot inner)]

def enough (least : UInt32) (slot start : Nat) : Code :=
  branch (.short slot least) [.rewind start, .free slot, .assign slot .failed] []

def repeated (quantifier : Quantifier) (slot start : Nat) (inner : Code) : Code :=
  if 0 < quantifier.least then
    instr (.save start) ++ gather quantifier.most slot inner ++
      enough quantifier.least slot start
  else gather quantifier.most slot inner

/-- The element after the first `done` of a sequence whose slot is `slot`. -/
def element (done slot start : Nat) (inner : Code) : Code :=
  all [remark (.element (done + 1)), inner,
    branch (.failed (slot + done))
      ((List.range' slot done).reverse.map .free ++
        [.rewind start, .assign slot .failed, .leave]) [],
    blank]

def sequence (count slot start : Nat) (call inner : Code) : Code :=
  instr (.save start) ++ loop .sequence
    (all [inner, call, instr (.assign slot (.wrapped start (List.range' slot count)))])

def alternative (number slot : Nat) (inner : Code) : Code :=
  all [remark (.alternative number), inner, guard (.matched slot) .leave, blank]

end Template

mutual

/-- The labels in sight after an expression whose result is in `slot`. -/
def Expr.envAfter (slot : Nat) (env : Env) : Expr → Env
  | .named _ _ inner => inner.envAfter slot env
  | .sequence _ elements => Expr.envAfterAll slot env elements
  | .labeled _ label _ => env.insert label slot
  | .choice .. | .text .. | .optional .. | .repeated .. | .lookahead .. | .predicate ..
  | .action .. | .ruleRef .. | .literal .. | .charClass .. | .any .. => env

def Expr.envAfterAll (slot : Nat) (env : Env) : List Expr → Env
  | [] => env
  | first :: rest => Expr.envAfterAll (slot + 1) (first.envAfter slot env) rest

end

/-- The description of a literal in failures. -/
def Expr.literalDescription (value : String) (ignoreCase : Bool) : String :=
  "\"" ++ CString.escapeString value ++ "\"" ++ if ignoreCase then "i" else ""

/-- The call of an action that is left to the sequence it belongs to. -/
def Session.pendingCall (tables : Session) (action : Option UserCode) (env : Env) : Code :=
  match action with
  | some code => instr (.act (tables.actionCall code env))
  | none => skip

mutual

/-- The code of an expression, with the numbers that the tables give. -/
def Expr.lower (tables : Session) (scope : Scope) (start : Nat) : Expr → Code
  | .named _ name inner =>
    Template.named scope.slot (tables.descriptionNumber .other name)
      (inner.lower tables scope start)
  | .choice _ [] => instr (.assign scope.slot .failed)
  | .choice _ alternatives =>
    loop .choice (Expr.lowerAlternatives tables scope start 1 alternatives)
  | .sequence _ elements =>
    Template.sequence elements.length scope.slot start
      (tables.pendingCall scope.action (Expr.envAfterAll scope.slot scope.env elements))
      (Expr.lowerElements tables scope.slot start 0 scope.env elements)
  | .labeled _ label inner =>
    inner.lower tables ((scope.bind label).branch scope.slot) start
  | .text _ inner =>
    Template.text scope.slot start (inner.lower tables (scope.branch scope.slot) (start + 1))
  | .optional _ inner =>
    Template.optional scope.slot (inner.lower tables (scope.branch scope.slot) start)
  | .repeated _ quantifier inner =>
    Template.repeated quantifier scope.slot start
      (inner.lower tables (scope.branch (scope.slot + 1))
        (if 0 < quantifier.least then start + 1 else start))
  | .lookahead _ negated inner =>
    Template.lookahead negated scope.slot start
      (inner.lower tables (scope.branch scope.slot) (start + 1))
  | .predicate _ negated code =>
    Template.predicate negated scope.slot (tables.predicateCall code scope.env)
  | .action _ code inner =>
    if inner.isSequence then inner.lower tables (scope.withAction code) start
    else
      Template.action scope.slot start
        (tables.actionCall code (inner.envAfter scope.slot scope.env))
        (inner.lower tables (scope.branch scope.slot) (start + 1))
  | .ruleRef _ name => instr (.assign scope.slot (.rule name))
  | .literal _ value ignoreCase =>
    instr (.assign scope.slot (.literal (tables.literalNumber (Bytes.ofString value))
      (tables.descriptionNumber .literal (Expr.literalDescription value ignoreCase))))
  | .charClass _ cls =>
    instr (.assign scope.slot (.charClass (tables.classNumber cls.byteSingles cls.byteRanges)
      (tables.descriptionNumber .charClass cls.rawText) cls.inverted))
  | .any _ => instr (.assign scope.slot .anyByte)

def Expr.lowerElements (tables : Session) (slot start done : Nat) (env : Env) :
    List Expr → Code
  | [] => skip
  | first :: rest =>
    Template.element done slot start
        (first.lower tables ⟨slot + done, env, none⟩ (start + 1)) ++
      Expr.lowerElements tables slot start (done + 1) (first.envAfter (slot + done) env) rest

def Expr.lowerAlternatives (tables : Session) (scope : Scope) (start number : Nat) :
    List Expr → Code
  | [] => skip
  | [last] =>
    all [remark (.alternative number), last.lower tables (scope.branch scope.slot) start]
  | first :: second :: rest =>
    Template.alternative number scope.slot
        (first.lower tables (scope.branch scope.slot) start) ++
      Expr.lowerAlternatives tables scope start (number + 1) (second :: rest)

end

def Operand.Within (tables : Session) : Operand → Prop
  | .literal constant expected =>
    constant < tables.literals.length ∧ expected < tables.descriptions.length
  | .charClass constant expected _ =>
    constant < tables.classes.length ∧ expected < tables.descriptions.length
  | .failure expected => expected < tables.descriptions.length
  | .failed | .noMatch | .emptyArray | .anyByte | .rule _ | .wrapped .. | .matchedText _ => True

def Condition.Within (tables : Session) : Condition → Prop
  | .holds call => call.index < tables.predicates.length
  | .failed _ | .matched _ | .full .. | .short .. => True

def Instruction.Within (tables : Session) : Instruction → Prop
  | .assign _ operand => operand.Within tables
  | .act call => call.index < tables.actions.length
  | .save _ | .rewind _ | .mute | .unmute | .free _ | .append .. | .leave => True

/-- No number in the code points past the end of its table. -/
def Code.Within (tables : Session) : Code → Prop
  | .skip | .remark _ | .blank => True
  | .seq first second => first.Within tables ∧ second.Within tables
  | .instr instruction => instruction.Within tables
  | .guard condition instruction => condition.Within tables ∧ instruction.Within tables
  | .branch condition yes no =>
    condition.Within tables ∧ (∀ i ∈ yes, i.Within tables) ∧ ∀ i ∈ no, i.Within tables
  | .loop _ body => body.Within tables

attribute [simp] Operand.Within Condition.Within Instruction.Within Code.Within

namespace Code

@[simp] theorem within_append (tables : Session) (first second : Code) :
    (first ++ second).Within tables ↔ first.Within tables ∧ second.Within tables := Iff.rfl

@[simp] theorem within_all (tables : Session) (parts : List Code) :
    (all parts).Within tables ↔ ∀ part ∈ parts, part.Within tables := by
  induction parts with
  | nil => simp [all]
  | cons part rest ih => simp only [all, within_append, ih, List.forall_mem_cons]

end Code

namespace Template

variable (tables : Session) (slot start : Nat) (inner : Code)

@[simp] theorem within_predicate (negated : Bool) (call : Call) :
    (predicate negated slot call).Within tables ↔ call.index < tables.predicates.length := by
  cases negated <;> simp [predicate]

@[simp] theorem within_named (expected : Nat) :
    (named slot expected inner).Within tables ↔
      inner.Within tables ∧ expected < tables.descriptions.length := by
  simp [named]

@[simp] theorem within_text : (text slot start inner).Within tables ↔ inner.Within tables := by
  simp [text]

@[simp] theorem within_action (call : Call) :
    (action slot start call inner).Within tables ↔
      inner.Within tables ∧ call.index < tables.actions.length := by
  simp [action]

@[simp] theorem within_optional : (optional slot inner).Within tables ↔ inner.Within tables := by
  simp [optional]

@[simp] theorem within_lookahead (negated : Bool) :
    (lookahead negated slot start inner).Within tables ↔ inner.Within tables := by
  cases negated <;> simp [lookahead]

@[simp] theorem within_gather (most : Option UInt32) :
    (gather most slot inner).Within tables ↔ inner.Within tables := by
  cases most <;> simp [gather, round]

@[simp] theorem within_repeated (quantifier : Quantifier) :
    (repeated quantifier slot start inner).Within tables ↔ inner.Within tables := by
  unfold repeated
  split <;> simp [enough]

@[simp] theorem within_element (done : Nat) :
    (element done slot start inner).Within tables ↔ inner.Within tables := by
  have undo : ∀ i ∈ (List.range' slot done).reverse.map Instruction.free ++
      [.rewind start, .assign slot .failed, .leave], i.Within tables := by
    intro i hi
    simp only [List.mem_append, List.mem_map, List.mem_cons, List.not_mem_nil, or_false] at hi
    rcases hi with ⟨_, _, rfl⟩ | rfl | rfl | rfl <;> exact trivial
  simp only [element, Code.within_all, List.forall_mem_cons, List.not_mem_nil, false_imp_iff,
    implies_true, and_true, Code.Within, Condition.Within, true_and]
  exact and_iff_left undo

@[simp] theorem within_sequence (count : Nat) (call : Code) :
    (sequence count slot start call inner).Within tables ↔
      inner.Within tables ∧ call.Within tables := by
  simp [sequence]

@[simp] theorem within_alternative (number : Nat) :
    (alternative number slot inner).Within tables ↔ inner.Within tables := by
  simp [alternative]

end Template

end Backtrack
