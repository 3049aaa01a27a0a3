import Backtrack.Generate.Rule
import Backtrack.Proofs.Generation.Lowering

/-!
# Where code refers to the tables

Literals, classes, names and user code of an expression are sites that the code refers to the tables
for. Each site has one reference in the code, and the references come in the order of the sites.
-/

namespace Backtrack

set_option autoImplicit false

/-- A place in the code that numbers entries of the tables. -/
inductive Reference where
  /-- An operand with constants. -/
  | constant (operand : Operand)
  | asked (call : Call)
  | acted (call : Call)

namespace Reference

def text : Reference → String
  | .constant operand => operand.text
  | .asked call => call.text FunctionTable.predicates.stem
  | .acted call => call.text FunctionTable.actions.stem

/-- The numbers are in the tables. -/
def Within (tables : Session) : Reference → Prop
  | .constant operand => operand.Within tables
  | .asked call => call.index < tables.predicates.length
  | .acted call => call.index < tables.actions.length

end Reference

def Operand.references (operand : Operand) : List Reference :=
  match operand with
  | .literal .. | .charClass .. | .failure _ => [.constant operand]
  | .failed | .noMatch | .emptyArray | .anyByte | .rule _ | .wrapped .. | .matchedText _ => []

def Condition.references : Condition → List Reference
  | .holds call => [.asked call]
  | .failed _ | .matched _ | .full .. | .short .. => []

def Instruction.references : Instruction → List Reference
  | .assign _ operand => operand.references
  | .act call => [.acted call]
  | .save _ | .rewind _ | .mute | .unmute | .free _ | .append .. | .leave => []

/-- The references of code in the order in which they are written. -/
def Code.references : Code → List Reference
  | .skip | .remark _ | .blank => []
  | .seq first second => first.references ++ second.references
  | .instr instruction => instruction.references
  | .guard condition instruction => condition.references ++ instruction.references
  | .branch condition yes no =>
    condition.references ++ yes.flatMap Instruction.references ++
      no.flatMap Instruction.references
  | .loop _ body => body.references

attribute [simp] Operand.references Condition.references Instruction.references Code.references

section Members

variable {reference : Reference}

theorem Operand.eq_of_mem {operand : Operand} (h : reference ∈ operand.references) :
    reference = .constant operand := by
  cases operand with
  | literal constant expected => exact List.mem_singleton.mp h
  | charClass constant expected inverted => exact List.mem_singleton.mp h
  | failure expected => exact List.mem_singleton.mp h
  | _ => cases h

theorem Condition.eq_of_mem {condition : Condition} (h : reference ∈ condition.references) :
    ∃ call, condition = .holds call ∧ reference = .asked call := by
  cases condition with
  | holds call => exact ⟨call, rfl, List.mem_singleton.mp h⟩
  | _ => cases h

theorem Instruction.eq_of_mem {instruction : Instruction}
    (h : reference ∈ instruction.references) :
    (∃ slot operand, instruction = .assign slot operand ∧ reference = .constant operand) ∨
      ∃ call, instruction = .act call ∧ reference = .acted call := by
  cases instruction with
  | assign slot operand => exact Or.inl ⟨slot, operand, rfl, operand.eq_of_mem h⟩
  | act call => exact Or.inr ⟨call, rfl, List.mem_singleton.mp h⟩
  | _ => cases h

variable {tables : Session}

theorem Condition.within_of_mem {condition : Condition} (h : condition.Within tables)
    (hr : reference ∈ condition.references) : reference.Within tables := by
  obtain ⟨call, rfl, rfl⟩ := condition.eq_of_mem hr
  exact h

theorem Instruction.within_of_mem {instruction : Instruction} (h : instruction.Within tables)
    (hr : reference ∈ instruction.references) : reference.Within tables := by
  rcases instruction.eq_of_mem hr with ⟨slot, operand, rfl, rfl⟩ | ⟨call, rfl, rfl⟩
  · exact h
  · exact h

theorem Code.within_of_mem {code : Code} (h : code.Within tables)
    (hr : reference ∈ code.references) : reference.Within tables := by
  induction code with
  | skip => cases hr
  | remark note => cases hr
  | blank => cases hr
  | seq first second ihfirst ihsecond =>
    rcases List.mem_append.mp hr with hr | hr
    · exact ihfirst h.1 hr
    · exact ihsecond h.2 hr
  | instr instruction => exact instruction.within_of_mem h hr
  | guard condition instruction =>
    rcases List.mem_append.mp hr with hr | hr
    · exact condition.within_of_mem h.1 hr
    · exact instruction.within_of_mem h.2 hr
  | branch condition yes no =>
    obtain ⟨hcondition, hyes, hno⟩ := h
    rcases List.mem_append.mp hr with hr | hr
    · rcases List.mem_append.mp hr with hr | hr
      · exact condition.within_of_mem hcondition hr
      · obtain ⟨instruction, hi, hr⟩ := List.mem_flatMap.mp hr
        exact instruction.within_of_mem (hyes instruction hi) hr
    · obtain ⟨instruction, hi, hr⟩ := List.mem_flatMap.mp hr
      exact instruction.within_of_mem (hno instruction hi) hr
  | loop purpose body ih => exact ih h hr

end Members

/-- The text is part of the line. -/
def Shows (line text : String) : Prop := ∃ front back, line = front ++ text ++ back

theorem shows_around (front text back : String) : Shows (front ++ text ++ back) text :=
  ⟨front, back, rfl⟩

theorem Shows.around {line text : String} (h : Shows line text) (front back : String) :
    Shows (front ++ line ++ back) text := by
  obtain ⟨left, right, rfl⟩ := h
  refine ⟨front ++ left, right ++ back, ?_⟩
  simp only [String.append_assoc]

theorem Shows.placed {line text : String} (h : Shows line text) (depth : Nat) :
    Shows (Lines.placed depth line) text := by
  unfold Lines.placed
  split
  · rename_i hempty
    rw [hempty] at h
    exact h
  · have hright := h.around (String.ofList (List.replicate (2 * depth) ' ')) ""
    rw [String.append_empty] at hright
    exact hright

section Written

variable {reference : Reference}

theorem Condition.shows {condition : Condition} (hr : reference ∈ condition.references) :
    Shows condition.text reference.text := by
  obtain ⟨call, rfl, rfl⟩ := condition.eq_of_mem hr
  have h := shows_around "" (call.text FunctionTable.predicates.stem) ""
  rw [String.empty_append, String.append_empty] at h
  exact h

theorem Instruction.shows {instruction : Instruction} (hr : reference ∈ instruction.references) :
    Shows instruction.text reference.text := by
  rcases instruction.eq_of_mem hr with ⟨slot, operand, rfl, rfl⟩ | ⟨call, rfl, rfl⟩
  · exact shows_around ((Slot.result slot).name ++ " = ") operand.text ";"
  · have h := shows_around "" (call.text FunctionTable.actions.stem) ";"
    rw [String.empty_append] at h
    exact h

theorem Code.shows_block {instructions : List Instruction}
    (hr : reference ∈ instructions.flatMap Instruction.references) (depth : Nat) :
    ∃ line ∈ block depth instructions, Shows line reference.text := by
  obtain ⟨instruction, hi, hr⟩ := List.mem_flatMap.mp hr
  exact ⟨_, List.mem_map_of_mem hi, (instruction.shows hr).placed (depth + 1)⟩

theorem Code.lines_branch (depth : Nat) (condition : Condition) (yes no : List Instruction) :
    ∃ rest, (branch condition yes no).lines depth =
        Lines.placed depth ("if (" ++ condition.text ++ ") \x7b") :: (block depth yes ++ rest) ∧
      block depth no ⊆ rest := by
  cases no with
  | nil => exact ⟨_, rfl, List.nil_subset _⟩
  | cons first others =>
    refine ⟨_, rfl, ?_⟩
    intro line hline
    exact List.mem_cons_of_mem _ (List.mem_append_left _ hline)

/-- Every reference stands in some line of the code. -/
theorem Code.shows_lines {code : Code} (hr : reference ∈ code.references) (depth : Nat) :
    ∃ line ∈ code.lines depth, Shows line reference.text := by
  induction code generalizing depth with
  | skip => cases hr
  | remark note => cases hr
  | blank => cases hr
  | seq first second ihfirst ihsecond =>
    rcases List.mem_append.mp hr with hr | hr
    · obtain ⟨line, hline, hshows⟩ := ihfirst hr depth
      exact ⟨line, List.mem_append_left _ hline, hshows⟩
    · obtain ⟨line, hline, hshows⟩ := ihsecond hr depth
      exact ⟨line, List.mem_append_right _ hline, hshows⟩
  | instr instruction =>
    exact ⟨_, List.mem_singleton_self _, (instruction.shows hr).placed depth⟩
  | guard condition instruction =>
    refine ⟨_, List.mem_singleton_self _, Shows.placed ?_ depth⟩
    rcases List.mem_append.mp hr with hr | hr
    · have h := (condition.shows hr).around "if (" (") \x7b " ++ instruction.text ++ " \x7d")
      simp only [String.append_assoc] at h ⊢
      exact h
    · exact (instruction.shows hr).around ("if (" ++ condition.text ++ ") \x7b ") " \x7d"
  | branch condition yes no =>
    obtain ⟨rest, hlines, hno⟩ := lines_branch depth condition yes no
    rw [hlines]
    rcases List.mem_append.mp hr with hr | hr
    · rcases List.mem_append.mp hr with hr | hr
      · refine ⟨_, List.mem_cons_self, Shows.placed ?_ depth⟩
        exact (condition.shows hr).around "if (" ") \x7b"
      · obtain ⟨line, hline, hshows⟩ := shows_block hr depth
        exact ⟨line, List.mem_cons_of_mem _ (List.mem_append_left _ hline), hshows⟩
    · obtain ⟨line, hline, hshows⟩ := shows_block hr depth
      exact ⟨line, List.mem_cons_of_mem _ (List.mem_append_right _ (hno hline)), hshows⟩
  | loop purpose body ih =>
    obtain ⟨line, hline, hshows⟩ := ih hr (depth + 1)
    exact ⟨line, List.mem_cons_of_mem _ (List.mem_append_left _ hline), hshows⟩

theorem RuleFunction.shows_lines {function : RuleFunction}
    (hr : reference ∈ function.body.references) :
    ∃ line ∈ function.lines.toList, Shows line reference.text := by
  obtain ⟨line, hline, hshows⟩ := Code.shows_lines hr 1
  refine ⟨line, ?_, hshows⟩
  have hlines : ∃ front back, function.lines.toList = front ++ function.body.lines 1 ++ back :=
    ⟨_, _, List.append_assoc _ _ _⟩
  obtain ⟨front, back, hlines⟩ := hlines
  rw [hlines]
  exact List.mem_append_left _ (List.mem_append_right _ hline)

end Written

/-- A part of an expression that the code refers to a table for. User code comes with the labels in
sight and their slots. -/
inductive Site where
  | literal (value : String) (ignoreCase : Bool)
  | charClass (cls : CharClass)
  | named (name : String)
  | predicate (code : UserCode) (env : Env)
  | action (code : UserCode) (env : Env)

mutual

/-- The sites of an expression in a slot and with labels in sight. Names and actions come after the
expressions they are about. -/
def Expr.sites (slot : Nat) (env : Env) : Expr → List Site
  | .named _ name inner => inner.sites slot env ++ [.named name]
  | .choice _ alternatives => Expr.sitesFirst slot env alternatives
  | .sequence _ elements => Expr.sitesAll slot env elements
  | .labeled _ label inner => inner.sites slot (env.insert label slot)
  | .text _ inner | .optional _ inner | .lookahead _ _ inner => inner.sites slot env
  | .repeated _ _ inner => inner.sites (slot + 1) env
  | .predicate _ _ code => [.predicate code env]
  | .action _ code inner => inner.sites slot env ++ [.action code (inner.envAfter slot env)]
  | .literal _ value ignoreCase => [.literal value ignoreCase]
  | .charClass _ cls => [.charClass cls]
  | .ruleRef .. | .any _ => []

/-- The sites of elements, each in the slot after the one before. -/
def Expr.sitesAll (slot : Nat) (env : Env) : List Expr → List Site
  | [] => []
  | first :: rest =>
    first.sites slot env ++ Expr.sitesAll (slot + 1) (first.envAfter slot env) rest

def Expr.sitesFirst (slot : Nat) (env : Env) : List Expr → List Site
  | [] => []
  | first :: rest => first.sites slot env ++ Expr.sitesFirst slot env rest

end

/-- The reference of a site, with the numbers that the tables give. -/
def Site.reference (tables : Session) : Site → Reference
  | .literal value ignoreCase =>
    .constant (.literal (tables.literalNumber (Bytes.ofString value))
      (tables.descriptionNumber .literal (Expr.literalDescription value ignoreCase)))
  | .charClass cls =>
    .constant (.charClass (tables.classNumber cls.byteSingles cls.byteRanges)
      (tables.descriptionNumber .charClass cls.rawText) cls.inverted)
  | .named name => .constant (.failure (tables.descriptionNumber .other name))
  | .predicate code env => .asked (tables.predicateCall code env)
  | .action code env => .acted (tables.actionCall code env)

namespace Code

@[simp] theorem references_append (first second : Code) :
    (first ++ second).references = first.references ++ second.references := rfl

@[simp] theorem references_all (parts : List Code) :
    (all parts).references = parts.flatMap references := by
  induction parts with
  | nil => rfl
  | cons part rest ih => rw [all, references_append, ih, List.flatMap_cons]

end Code

namespace Template

open Code

variable (slot start : Nat) (inner : Code)

theorem references_predicate (negated : Bool) (call : Call) :
    (predicate negated slot call).references = [.asked call] := by
  cases negated with
  | false => rfl
  | true => rfl

theorem references_named (expected : Nat) :
    (named slot expected inner).references =
      inner.references ++ [.constant (.failure expected)] := by
  simp [named]

theorem references_text : (text slot start inner).references = inner.references := by
  simp [text]

theorem references_action (call : Call) :
    (action slot start call inner).references = inner.references ++ [.acted call] := by
  simp [action]

theorem references_optional : (optional slot inner).references = inner.references := by
  simp [optional]

theorem references_lookahead (negated : Bool) :
    (lookahead negated slot start inner).references = inner.references := by
  cases negated <;>
    simp [lookahead]

theorem references_gather (most : Option UInt32) :
    (gather most slot inner).references = inner.references := by
  cases most <;>
    simp [gather, round]

theorem references_repeated (quantifier : Quantifier) :
    (repeated quantifier slot start inner).references = inner.references := by
  unfold repeated
  split
  · rw [references_append, references_append, references_gather]
    exact List.append_nil _
  · exact references_gather slot inner quantifier.most

theorem references_element (done : Nat) :
    (element done slot start inner).references = inner.references := by
  have hfree : ((List.range' slot done).reverse.map Instruction.free).flatMap
      Instruction.references = [] := by
    rw [List.flatMap_map]
    exact List.flatMap_eq_nil_iff.mpr fun _ _ => rfl
  simp only [element, references_all, List.flatMap_cons, List.flatMap_nil, Code.references,
    Condition.references, List.flatMap_append, hfree, Instruction.references, Operand.references,
    List.nil_append, List.append_nil]

theorem references_sequence (count : Nat) (call : Code) :
    (sequence count slot start call inner).references = inner.references ++ call.references := by
  simp [sequence]

theorem references_alternative (number : Nat) :
    (alternative number slot inner).references = inner.references := by
  simp [alternative]

end Template

namespace Expr

variable {tables : Session}

/-- The references of the code are those of the sites. A sequence that has an action to call ends
with the reference of the action. -/
def Refers (tables : Session) (e : Expr) : Prop :=
  ∀ (scope : Scope) (start : Nat), scope.action = none ∨ e.isSequence = true →
    (e.lower tables scope start).references =
      (e.sites scope.slot scope.env).map (Site.reference tables) ++
        (tables.pendingCall scope.action (e.envAfter scope.slot scope.env)).references

theorem Refers.plain {e : Expr} (h : e.Refers tables) {scope : Scope} (hs : scope.action = none)
    (start : Nat) :
    (e.lower tables scope start).references =
      (e.sites scope.slot scope.env).map (Site.reference tables) := by
  rw [h scope start (Or.inl hs), hs]
  exact List.append_nil _

theorem references_elements {elements : List Expr} (h : ∀ e ∈ elements, e.Refers tables)
    (slot start done : Nat) (env : Env) :
    (lowerElements tables slot start done env elements).references =
      (sitesAll (slot + done) env elements).map (Site.reference tables) := by
  induction elements generalizing done env with
  | nil => rfl
  | cons first rest ih =>
    obtain ⟨hfirst, hrest⟩ := List.forall_mem_cons.mp h
    rw [lowerElements, Code.references_append, Template.references_element, hfirst.plain rfl,
      ih hrest, sitesAll, List.map_append]
    rfl

theorem references_alternatives {alternatives : List Expr}
    (h : ∀ e ∈ alternatives, e.Refers tables) (scope : Scope) (start number : Nat) :
    (lowerAlternatives tables scope start number alternatives).references =
      (sitesFirst scope.slot scope.env alternatives).map (Site.reference tables) := by
  induction alternatives generalizing number with
  | nil => rfl
  | cons first rest ih =>
    obtain ⟨hfirst, hrest⟩ := List.forall_mem_cons.mp h
    have hplain : (first.lower tables (scope.branch scope.slot) start).references =
        (first.sites scope.slot scope.env).map (Site.reference tables) := hfirst.plain rfl start
    rw [sitesFirst, List.map_append]
    cases rest with
    | nil =>
      rw [lowerAlternatives, Code.references_all, ← hplain]
      rfl
    | cons second rest =>
      rw [lowerAlternatives, Code.references_append, Template.references_alternative, hplain,
        ih hrest]

theorem refers_of_plain {e : Expr} (hseq : e.isSequence = false)
    (h : ∀ (scope : Scope) (start : Nat), scope.action = none →
      (e.lower tables scope start).references =
        (e.sites scope.slot scope.env).map (Site.reference tables)) : e.Refers tables := by
  intro scope start hs
  rw [hseq] at hs
  have hnone : scope.action = none := hs.resolve_right nofun
  rw [h scope start hnone, hnone]
  exact (List.append_nil _).symm

theorem refers (tables : Session) (e : Expr) : e.Refers tables := by
  induction e using Expr.induction with
  | named region name inner ih =>
    refine refers_of_plain rfl fun scope start hs => ?_
    rw [lower, Template.references_named, ih.plain hs, sites, List.map_append]
    rfl
  | choice region alternatives ih =>
    refine refers_of_plain rfl fun scope start hs => ?_
    cases alternatives with
    | nil => rfl
    | cons first rest => exact references_alternatives ih scope start 1
  | sequence region elements ih =>
    intro scope start _
    rw [lower, Template.references_sequence, references_elements ih]
    rfl
  | labeled region label inner ih =>
    refine refers_of_plain rfl fun scope start hs => ?_
    exact ih.plain rfl start
  | text region inner ih =>
    refine refers_of_plain rfl fun scope start hs => ?_
    rw [lower, Template.references_text]
    exact ih.plain rfl (start + 1)
  | optional region inner ih =>
    refine refers_of_plain rfl fun scope start hs => ?_
    rw [lower, Template.references_optional]
    exact ih.plain rfl start
  | repeated region quantifier inner ih =>
    refine refers_of_plain rfl fun scope start hs => ?_
    rw [lower, Template.references_repeated]
    exact ih.plain rfl _
  | lookahead region negated inner ih =>
    refine refers_of_plain rfl fun scope start hs => ?_
    rw [lower, Template.references_lookahead]
    exact ih.plain rfl (start + 1)
  | predicate region negated code =>
    refine refers_of_plain rfl fun scope start hs => ?_
    exact Template.references_predicate scope.slot negated _
  | action region code inner ih =>
    refine refers_of_plain rfl fun scope start hs => ?_
    rw [lower, sites, List.map_append]
    split
    · rename_i hseq
      exact ih (scope.withAction code) start (Or.inr hseq)
    · rw [Template.references_action, ih.plain rfl]
      rfl
  | ruleRef region name => exact refers_of_plain rfl fun _ _ _ => rfl
  | literal region value ignoreCase => exact refers_of_plain rfl fun _ _ _ => rfl
  | charClass region cls => exact refers_of_plain rfl fun _ _ _ => rfl
  | any region => exact refers_of_plain rfl fun _ _ _ => rfl

end Expr

end Backtrack
