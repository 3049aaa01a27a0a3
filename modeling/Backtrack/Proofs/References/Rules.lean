import Backtrack.Proofs.Generation.ClosedForm
import Backtrack.Proofs.Generation.Traversal

/-!
# The rules that code calls

The code of an expression calls the rules that the expression refers to, each as often as it is
referred to and in the same order.
-/

namespace Backtrack

set_option autoImplicit false

open Code

/-- The rule that a node refers to. -/
def Expr.ruleName? : Expr → Option String
  | .ruleRef _ name => some name
  | _ => none

/-- The rules that an expression refers to, from left to right. -/
def Expr.ruleNames (e : Expr) : List String := e.nodes.filterMap ruleName?

def Instruction.called : Instruction → List String
  | .assign _ (.rule name) => [name]
  | _ => []

/-- The rules that code calls, in the order of its lines. -/
def Code.called : Code → List String
  | .skip | .remark _ | .blank => []
  | .seq first second => first.called ++ second.called
  | .instr instruction | .guard _ instruction => instruction.called
  | .branch _ yes no => (yes ++ no).flatMap Instruction.called
  | .loop _ body => body.called

attribute [simp] Instruction.called Code.called

namespace Code

@[simp] theorem called_append (first second : Code) :
    (first ++ second).called = first.called ++ second.called := rfl

@[simp] theorem called_all (parts : List Code) : (all parts).called = parts.flatMap called := by
  induction parts with
  | nil => rfl
  | cons part rest ih => rw [all, called_append, ih, List.flatMap_cons]

end Code

namespace Template

variable (slot start : Nat) (inner : Code)

@[simp] theorem called_predicate (negated : Bool) (call : Call) :
    (predicate negated slot call).called = [] := by
  cases negated <;> simp [predicate]

@[simp] theorem called_named (expected : Nat) :
    (named slot expected inner).called = inner.called := by
  simp [named]

@[simp] theorem called_text : (text slot start inner).called = inner.called := by
  simp [text]

@[simp] theorem called_action (call : Call) :
    (action slot start call inner).called = inner.called := by
  simp [action]

@[simp] theorem called_optional : (optional slot inner).called = inner.called := by
  simp [optional]

@[simp] theorem called_lookahead (negated : Bool) :
    (lookahead negated slot start inner).called = inner.called := by
  cases negated <;> simp [lookahead]

@[simp] theorem called_repeated (quantifier : Quantifier) :
    (repeated quantifier slot start inner).called = inner.called := by
  have hgather : ∀ most, (gather most slot inner).called = inner.called := by
    intro most
    cases most <;> simp [gather, round]
  unfold repeated
  split <;> simp [hgather, enough]

@[simp] theorem called_element (done : Nat) :
    (element done slot start inner).called = inner.called := by
  have hfrees : ((List.range' slot done).reverse.map Instruction.free).flatMap
      Instruction.called = [] := by
    rw [List.flatMap_map]
    exact List.flatMap_eq_nil_iff.mpr fun _ _ => rfl
  simp only [element, called_all, List.flatMap_cons, List.flatMap_nil, Code.called,
    List.append_nil, List.nil_append, List.flatMap_append, hfrees, Instruction.called]

@[simp] theorem called_sequence (count : Nat) (call : Code) :
    (sequence count slot start call inner).called = inner.called ++ call.called := by
  simp [sequence]

@[simp] theorem called_alternative (number : Nat) :
    (alternative number slot inner).called = inner.called := by
  simp [alternative]

end Template

@[simp] theorem Session.called_pendingCall (tables : Session) (action : Option UserCode)
    (env : Env) : (tables.pendingCall action env).called = [] := by
  cases action <;> rfl

namespace Expr

/-- A node that refers to no rule itself. -/
theorem ruleNames_around {e : Expr} {inside : List Expr} (hnodes : e.nodes = inside ++ [e])
    (hname : e.ruleName? = none) : e.ruleNames = inside.filterMap ruleName? := by
  rw [ruleNames, hnodes, List.filterMap_append, List.filterMap_cons_none hname, List.filterMap_nil,
    List.append_nil]

/-- The code of an expression calls the rules that the expression refers to. -/
def Calls (tables : Session) (e : Expr) : Prop :=
  ∀ scope start, (e.lower tables scope start).called = e.ruleNames

variable {tables : Session}

/-- A node around another, whose code adds no call to that of the node inside. -/
theorem Calls.around {e inner : Expr} (ih : inner.Calls tables)
    (hnodes : e.nodes = inner.nodes ++ [e]) (hname : e.ruleName? = none)
    (hcode : ∀ scope start, ∃ scope' start',
      (e.lower tables scope start).called = (inner.lower tables scope' start').called) :
    e.Calls tables := by
  intro scope start
  obtain ⟨scope', start', hcalled⟩ := hcode scope start
  rw [hcalled, ih, ruleNames_around hnodes hname]
  rfl

theorem calls_elements {elements : List Expr} (h : ∀ e ∈ elements, e.Calls tables)
    (slot start done : Nat) (env : Env) :
    (lowerElements tables slot start done env elements).called =
      (nodesAll elements).filterMap ruleName? := by
  induction elements generalizing done env with
  | nil => rfl
  | cons first rest ih =>
    obtain ⟨hfirst, hrest⟩ := List.forall_mem_cons.mp h
    rw [lowerElements, called_append, Template.called_element, hfirst, ih hrest, nodesAll,
      List.filterMap_append]
    rfl

theorem calls_alternatives {alternatives : List Expr} (h : ∀ e ∈ alternatives, e.Calls tables)
    (scope : Scope) (start number : Nat) :
    (lowerAlternatives tables scope start number alternatives).called =
      (nodesAll alternatives).filterMap ruleName? := by
  induction alternatives generalizing number with
  | nil => rfl
  | cons first rest ih =>
    obtain ⟨hfirst, hrest⟩ := List.forall_mem_cons.mp h
    rw [nodesAll, List.filterMap_append]
    cases rest with
    | nil =>
      rw [lowerAlternatives, called_all, nodesAll, List.filterMap_nil]
      simp only [List.flatMap_cons, List.flatMap_nil, hfirst _ _]
      rfl
    | cons second rest =>
      rw [lowerAlternatives, called_append, Template.called_alternative, hfirst, ih hrest]
      rfl

theorem calls (tables : Session) (e : Expr) : e.Calls tables := by
  induction e using Expr.induction with
  | named region name inner ih =>
    exact ih.around rfl rfl fun scope start => ⟨scope, start, Template.called_named _ _ _⟩
  | choice region alternatives ih =>
    intro scope start
    have hnames : (choice region alternatives).ruleNames =
        (nodesAll alternatives).filterMap ruleName? := ruleNames_around rfl rfl
    rw [hnames]
    cases alternatives with
    | nil => rfl
    | cons first rest => exact calls_alternatives ih scope start 1
  | sequence region elements ih =>
    intro scope start
    have hnames : (sequence region elements).ruleNames =
        (nodesAll elements).filterMap ruleName? := ruleNames_around rfl rfl
    rw [lower, Template.called_sequence, Session.called_pendingCall, List.append_nil, hnames]
    exact calls_elements ih scope.slot start 0 scope.env
  | labeled region label inner ih =>
    exact ih.around rfl rfl fun scope start => ⟨_, start, rfl⟩
  | text region inner ih =>
    exact ih.around rfl rfl fun scope start => ⟨_, _, Template.called_text _ _ _⟩
  | optional region inner ih =>
    exact ih.around rfl rfl fun scope start => ⟨_, start, Template.called_optional _ _⟩
  | repeated region quantifier inner ih =>
    exact ih.around rfl rfl fun scope start => ⟨_, _, Template.called_repeated _ _ _ _⟩
  | lookahead region negated inner ih =>
    exact ih.around rfl rfl fun scope start => ⟨_, _, Template.called_lookahead _ _ _ _⟩
  | action region code inner ih =>
    refine ih.around rfl rfl fun scope start => ?_
    rw [lower]
    split
    · exact ⟨_, _, rfl⟩
    · exact ⟨_, _, Template.called_action _ _ _ _⟩
  | predicate region negated code =>
    exact fun scope start => Template.called_predicate _ _ _
  | ruleRef | literal | charClass | any => exact fun _ _ => rfl

end Expr

/-- A compiled rule calls the rules that it refers to. -/
theorem Session.called_compileRule {policy : Policy} {session grown : Session} {rule : Rule}
    {function : RuleFunction} (h : session.compileRule policy rule = (.ok function, grown)) :
    function.body.called = rule.expression.ruleNames := by
  obtain ⟨hbody, -⟩ := codeOf_compileRule h (.refl grown)
  rw [hbody]
  exact rule.expression.calls grown Scope.root 0

end Backtrack
