import Backtrack.Proofs.Execution.Following
import Backtrack.Proofs.Generation.ClosedForm
import Backtrack.Proofs.Locals.Uses

/-!
# Which locals the code of an expression uses

The code of an expression works on result slots from its own slot on and on position slots from
those that are free, so many of each as the expression needs. Slots below come up as arguments of
user code only.
-/

namespace Backtrack

set_option autoImplicit false

open Code

mutual

/-- How many result slots the code of an expression needs, its own slot included. -/
def Expr.resultSpan : Expr → Nat
  | .named _ _ inner | .labeled _ _ inner | .text _ inner | .optional _ inner
  | .lookahead _ _ inner | .action _ _ inner => inner.resultSpan
  | .choice _ alternatives => max 1 (Expr.resultSpanFirst alternatives)
  | .sequence _ elements => max 1 (Expr.resultSpanAll elements)
  | .repeated _ _ inner => inner.resultSpan + 1
  | .predicate .. | .ruleRef .. | .literal .. | .charClass .. | .any _ => 1

/-- Elements have their slots in a row. -/
def Expr.resultSpanAll : List Expr → Nat
  | [] => 0
  | first :: rest => max first.resultSpan (Expr.resultSpanAll rest + 1)

def Expr.resultSpanFirst : List Expr → Nat
  | [] => 0
  | first :: rest => max first.resultSpan (Expr.resultSpanFirst rest)

end

mutual

/-- How many position slots the code of an expression needs. -/
def Expr.positionSpan : Expr → Nat
  | .named _ _ inner | .labeled _ _ inner | .optional _ inner => inner.positionSpan
  | .choice _ alternatives => Expr.positionSpanMost alternatives
  | .sequence _ elements => Expr.positionSpanMost elements + 1
  | .text _ inner | .lookahead _ _ inner => inner.positionSpan + 1
  | .repeated _ quantifier inner =>
    if 0 < quantifier.least then inner.positionSpan + 1 else inner.positionSpan
  | .action _ _ inner => if inner.isSequence then inner.positionSpan else inner.positionSpan + 1
  | .predicate .. | .ruleRef .. | .literal .. | .charClass .. | .any _ => 0

def Expr.positionSpanMost : List Expr → Nat
  | [] => 0
  | first :: rest => max first.positionSpan (Expr.positionSpanMost rest)

end

theorem Expr.resultSpan_pos (e : Expr) : 0 < e.resultSpan := by
  induction e using Expr.induction <;> simp_all only [resultSpan] <;> omega

/-- So many result slots from `slot` on and so many position slots from `start` on; user code may be
called with other slots besides. -/
structure Extent where
  args : List Nat
  slot : Nat
  results : Nat
  start : Nat
  positions : Nat

namespace Extent

def HasResult (x : Extent) (i : Nat) : Prop := x.slot ≤ i ∧ i < x.slot + x.results

def HasPosition (x : Extent) (j : Nat) : Prop := x.start ≤ j ∧ j < x.start + x.positions

/-- The second extent has all that the first one has. -/
structure Sub (x y : Extent) : Prop where
  results : ∀ i, x.HasResult i → y.HasResult i
  positions : ∀ j, x.HasPosition j → y.HasPosition j
  args : ∀ i ∈ x.args, y.HasResult i ∨ i ∈ y.args

theorem sub_of_args {args args' : List Nat}
    {slot slot' results results' start start' positions positions' : Nat}
    (h : slot' ≤ slot ∧ slot + results ≤ slot' + results' ∧
      start' ≤ start ∧ start + positions ≤ start' + positions')
    (hargs : ∀ i ∈ args, slot' ≤ i ∧ i < slot' + results' ∨ i ∈ args') :
    Sub ⟨args, slot, results, start, positions⟩ ⟨args', slot', results', start', positions'⟩ := by
  obtain ⟨hslot, hresults, hstart, hpositions⟩ := h
  refine ⟨fun i hi => ?_, fun j hj => ?_, hargs⟩
  · exact ⟨Nat.le_trans hslot hi.1, Nat.lt_of_lt_of_le hi.2 hresults⟩
  · exact ⟨Nat.le_trans hstart hj.1, Nat.lt_of_lt_of_le hj.2 hpositions⟩

theorem sub_of_le {args : List Nat}
    {slot slot' results results' start start' positions positions' : Nat}
    (h : slot' ≤ slot ∧ slot + results ≤ slot' + results' ∧
      start' ≤ start ∧ start + positions ≤ start' + positions') :
    Sub ⟨args, slot, results, start, positions⟩ ⟨args, slot', results', start', positions'⟩ :=
  sub_of_args h fun _ hi => Or.inr hi

end Extent

def Use.Within (x : Extent) : Use → Prop
  | .result role i => x.HasResult i ∨ role = .passed ∧ i ∈ x.args
  | .position _ j => x.HasPosition j

theorem Use.Within.mono {x y : Extent} {use : Use} (h : use.Within x) (hsub : x.Sub y) :
    use.Within y := by
  cases use with
  | result role i =>
    rcases h with h | ⟨hrole, h⟩
    · exact Or.inl (hsub.results i h)
    · exact (hsub.args i h).imp_right fun h => ⟨hrole, h⟩
  | position role j => exact hsub.positions j h

/-- Every use in the code is one of the extent. -/
def Code.Stays (x : Extent) (code : Code) : Prop := ∀ use ∈ code.uses, use.Within x

namespace Code

variable {x y : Extent}

theorem Stays.mono {code : Code} (h : code.Stays x) (hsub : x.Sub y) : code.Stays y :=
  fun use hmem => (h use hmem).mono hsub

@[simp] theorem stays_skip : Stays x .skip := nofun

@[simp] theorem stays_remark (note : Remark) : Stays x (.remark note) := nofun

@[simp] theorem stays_blank : Stays x .blank := nofun

@[simp] theorem stays_append (first second : Code) :
    (first ++ second).Stays x ↔ first.Stays x ∧ second.Stays x := by
  simp only [Stays, uses_append, List.forall_mem_append]

@[simp] theorem stays_all (parts : List Code) :
    (all parts).Stays x ↔ ∀ part ∈ parts, part.Stays x := by
  induction parts with
  | nil => simp [all]
  | cons part rest ih => simp only [all, stays_append, ih, List.forall_mem_cons]

@[simp] theorem stays_instr (instruction : Instruction) :
    Stays x (.instr instruction) ↔ ∀ use ∈ instruction.uses, use.Within x := by
  simp only [Stays, uses_instr]

@[simp] theorem stays_guard (condition : Condition) (instruction : Instruction) :
    Stays x (.guard condition instruction) ↔
      (∀ use ∈ condition.uses, use.Within x) ∧ ∀ use ∈ instruction.uses, use.Within x := by
  simp only [Stays, uses_guard, List.forall_mem_append]

@[simp] theorem stays_branch (condition : Condition) (yes no : List Instruction) :
    Stays x (.branch condition yes no) ↔
      ((∀ use ∈ condition.uses, use.Within x) ∧
        ∀ instruction ∈ yes, ∀ use ∈ instruction.uses, use.Within x) ∧
      ∀ instruction ∈ no, ∀ use ∈ instruction.uses, use.Within x := by
  simp only [Stays, uses_branch, List.forall_mem_append, List.forall_mem_flatMap]

@[simp] theorem stays_loop (purpose : Loop) (body : Code) :
    Stays x (.loop purpose body) ↔ body.Stays x := by
  simp only [Stays, uses_loop]

end Code

attribute [local simp] Operand.uses Condition.uses Instruction.uses Use.Within

namespace Template

variable {x : Extent} {inner : Code} {slot start : Nat}

theorem stays_predicate (negated : Bool) {call : Call} (hslot : x.HasResult slot)
    (hcall : ∀ i ∈ call.args, x.HasResult i ∨ i ∈ x.args) :
    (predicate negated slot call).Stays x := by
  cases negated with
  | false => simpa [predicate, hslot] using hcall
  | true => simpa [predicate, hslot] using hcall

theorem stays_named (expected : Nat) (hslot : x.HasResult slot) (h : inner.Stays x) :
    (named slot expected inner).Stays x := by
  simp [named, h, hslot]

theorem stays_text (hslot : x.HasResult slot) (hstart : x.HasPosition start)
    (h : inner.Stays x) : (text slot start inner).Stays x := by
  simp [text, h, hslot, hstart]

theorem stays_action {call : Call} (hslot : x.HasResult slot) (hstart : x.HasPosition start)
    (hcall : ∀ i ∈ call.args, x.HasResult i ∨ i ∈ x.args) (h : inner.Stays x) :
    (action slot start call inner).Stays x := by
  simpa [action, h, hslot, hstart] using hcall

theorem stays_optional (hslot : x.HasResult slot) (h : inner.Stays x) :
    (optional slot inner).Stays x := by
  simp [optional, h, hslot]

theorem stays_lookahead (negated : Bool) (hslot : x.HasResult slot) (hstart : x.HasPosition start)
    (h : inner.Stays x) : (lookahead negated slot start inner).Stays x := by
  cases negated <;> simp [lookahead, h, hslot, hstart]

theorem stays_gather (most : Option UInt32) (hslot : x.HasResult slot)
    (hitem : x.HasResult (slot + 1)) (h : inner.Stays x) : (gather most slot inner).Stays x := by
  cases most <;> simp [gather, round, h, hslot, hitem]

theorem stays_repeated (quantifier : Quantifier) (hslot : x.HasResult slot)
    (hitem : x.HasResult (slot + 1)) (hstart : 0 < quantifier.least → x.HasPosition start)
    (h : inner.Stays x) : (repeated quantifier slot start inner).Stays x := by
  unfold repeated
  split
  · rename_i hleast
    simp [stays_gather _ hslot hitem h, enough, hslot, hstart hleast]
  · exact stays_gather _ hslot hitem h

theorem stays_element {done : Nat} (hslots : ∀ i ≤ done, x.HasResult (slot + i))
    (hstart : x.HasPosition start) (h : inner.Stays x) :
    (element done slot start inner).Stays x := by
  have hslot : x.HasResult slot := hslots 0 (Nat.zero_le _)
  have hundo : ∀ instruction ∈ (List.range' slot done).reverse.map Instruction.free ++
      [.rewind start, .assign slot .failed, .leave], ∀ use ∈ instruction.uses, use.Within x := by
    intro instruction hmem
    rcases List.mem_append.mp hmem with hmem | hmem
    · obtain ⟨i, hi, rfl⟩ := List.mem_map.mp hmem
      obtain ⟨k, hk, rfl⟩ := List.mem_range'.mp (List.mem_reverse.mp hi)
      simpa using hslots k (by omega)
    · simp only [List.mem_cons, List.not_mem_nil, or_false] at hmem
      rcases hmem with rfl | rfl | rfl <;> simp [hstart, hslot]
  have hcheck : Stays x (branch (.failed (slot + done)) _ []) :=
    (stays_branch _ _ _).mpr ⟨⟨by simpa using hslots done (Nat.le_refl _), hundo⟩,
      List.forall_mem_nil _⟩
  simp only [element, stays_all, List.forall_mem_cons]
  exact ⟨stays_remark _, h, hcheck, stays_blank, List.forall_mem_nil _⟩

theorem stays_sequence {count : Nat} {call : Code} (hslot : x.HasResult slot)
    (hslots : ∀ i < count, x.HasResult (slot + i)) (hstart : x.HasPosition start)
    (hcall : call.Stays x) (h : inner.Stays x) :
    (sequence count slot start call inner).Stays x := by
  have hwrap : ∀ use ∈ (Instruction.assign slot
      (.wrapped start (List.range' slot count))).uses, use.Within x := by
    intro use hmem
    simp only [Instruction.uses, Operand.uses, List.mem_cons, List.mem_map] at hmem
    rcases hmem with rfl | rfl | ⟨i, hi, rfl⟩
    · exact Or.inl hslot
    · exact hstart
    · obtain ⟨k, hk, rfl⟩ := List.mem_range'.mp hi
      simpa using hslots k (by omega)
  simp only [sequence, stays_append, stays_loop, stays_all, stays_instr, List.forall_mem_cons]
  exact ⟨by simpa using hstart, h, hcall, hwrap, List.forall_mem_nil _⟩

theorem stays_alternative (number : Nat) (hslot : x.HasResult slot) (h : inner.Stays x) :
    (alternative number slot inner).Stays x := by
  simp [alternative, h, hslot]

end Template

namespace Expr

open Extent

theorem length_le_resultSpanAll (elements : List Expr) :
    elements.length ≤ resultSpanAll elements := by
  induction elements with
  | nil => exact Nat.le_refl 0
  | cons first rest ih =>
    simp only [List.length_cons, resultSpanAll]
    omega

theorem mem_values_insert {env : Env} {label : String} {slot i : Nat}
    (h : i ∈ (env.insert label slot).values) : i = slot ∨ i ∈ env.values := by
  obtain ⟨entry, hmem, rfl⟩ := List.mem_map.mp h
  rcases OrderedMap.mem_insert hmem with rfl | hmem
  · exact Or.inl rfl
  · exact Or.inr (List.mem_map_of_mem hmem)

/-- The labels of an expression stand for slots that it needs. -/
def BindsWithin (e : Expr) : Prop :=
  ∀ slot env, ∀ i ∈ (e.envAfter slot env).values,
    slot ≤ i ∧ i < slot + e.resultSpan ∨ i ∈ env.values

theorem mem_envAfterAll {elements : List Expr} (he : ∀ e ∈ elements, e.BindsWithin) (slot : Nat)
    (env : Env) {i : Nat} (h : i ∈ (envAfterAll slot env elements).values) :
    slot ≤ i ∧ i < slot + resultSpanAll elements ∨ i ∈ env.values := by
  induction elements generalizing slot env with
  | nil => exact Or.inr h
  | cons first rest ih =>
    obtain ⟨hfirst, hrest⟩ := List.forall_mem_cons.mp he
    simp only [resultSpanAll]
    rcases ih hrest (slot + 1) (first.envAfter slot env) h with hrange | hmem
    · exact Or.inl (by omega)
    · rcases hfirst slot env i hmem with hrange | hmem
      · exact Or.inl (by omega)
      · exact Or.inr hmem

theorem bindsWithin (e : Expr) : e.BindsWithin := by
  induction e using Expr.induction with
  | named region name inner ih => exact ih
  | sequence region elements ih =>
    intro slot env i h
    rcases mem_envAfterAll ih slot env h with hrange | hmem
    · left
      simp only [resultSpan]
      omega
    · exact Or.inr hmem
  | labeled region label inner ih =>
    intro slot env i h
    have hpos := (labeled region label inner).resultSpan_pos
    rcases mem_values_insert h with rfl | hmem
    · exact Or.inl (by omega)
    · exact Or.inr hmem
  | _ =>
    intro slot env i h
    exact Or.inr h

def extent (e : Expr) (scope : Scope) (start : Nat) : Extent :=
  ⟨scope.env.values, scope.slot, e.resultSpan, start, e.positionSpan⟩

theorem extent_hasSlot (e : Expr) (scope : Scope) (start : Nat) :
    (e.extent scope start).HasResult scope.slot :=
  ⟨Nat.le_refl _, Nat.lt_add_of_pos_right e.resultSpan_pos⟩

/-- The code of the expression uses what the expression needs. -/
def Contained (e : Expr) : Prop :=
  ∀ tables scope start, (e.lower tables scope start).Stays (e.extent scope start)

theorem stays_elements {elements : List Expr} (he : ∀ e ∈ elements, e.Contained)
    (tables : Session) (slot start done : Nat) (env : Env) :
    (lowerElements tables slot start done env elements).Stays
      ⟨env.values, slot, done + resultSpanAll elements, start, positionSpanMost elements + 1⟩ := by
  induction elements generalizing done env with
  | nil => exact stays_skip
  | cons first rest ih =>
    obtain ⟨hfirst, hrest⟩ := List.forall_mem_cons.mp he
    have hpos := first.resultSpan_pos
    simp only [lowerElements, stays_append, resultSpanAll, positionSpanMost]
    constructor
    · apply Template.stays_element
      · intro i hi
        simp only [HasResult]
        omega
      · simp only [HasPosition]
        omega
      · apply (hfirst tables ⟨slot + done, env, none⟩ (start + 1)).mono
        apply sub_of_le
        dsimp only
        omega
    · apply (ih hrest (done + 1) (first.envAfter (slot + done) env)).mono
      apply sub_of_args
      · omega
      · intro i hi
        rcases first.bindsWithin (slot + done) env i hi with hrange | hmem
        · exact Or.inl (by omega)
        · exact Or.inr hmem

theorem stays_alternatives {alternatives : List Expr} (he : ∀ e ∈ alternatives, e.Contained)
    (tables : Session) (scope : Scope) (start number : Nat) :
    (lowerAlternatives tables scope start number alternatives).Stays
      ⟨scope.env.values, scope.slot, resultSpanFirst alternatives, start,
        positionSpanMost alternatives⟩ := by
  induction alternatives generalizing number with
  | nil => exact stays_skip
  | cons first rest ih =>
    obtain ⟨hfirst, hrest⟩ := List.forall_mem_cons.mp he
    have hpos := first.resultSpan_pos
    simp only [resultSpanFirst, positionSpanMost]
    have hone := (hfirst tables (scope.branch scope.slot) start).mono
      (@sub_of_le scope.env.values scope.slot scope.slot first.resultSpan
        (max first.resultSpan (resultSpanFirst rest)) start start first.positionSpan
        (max first.positionSpan (positionSpanMost rest)) (by omega))
    cases rest with
    | nil => simpa [lowerAlternatives] using hone
    | cons second others =>
      rw [lowerAlternatives, stays_append]
      constructor
      · apply Template.stays_alternative number _ hone
        simp only [HasResult]
        omega
      · apply (ih hrest (number + 1)).mono
        apply sub_of_le
        omega

theorem stays_pendingCall {x : Extent} (tables : Session) (action : Option UserCode) {env : Env}
    (h : ∀ i ∈ env.values, x.HasResult i ∨ i ∈ x.args) :
    (tables.pendingCall action env).Stays x := by
  cases action with
  | none => exact stays_skip
  | some code =>
    have hargs : ∀ i ∈ (tables.actionCall code env).args, x.HasResult i ∨ i ∈ x.args := h
    simpa [Session.pendingCall] using hargs

theorem contained (e : Expr) : e.Contained := by
  induction e using Expr.induction with
  | named region name inner ih =>
    intro tables scope start
    exact Template.stays_named _ (extent_hasSlot _ scope start) (ih tables scope start)
  | choice region alternatives ih =>
    intro tables scope start
    cases alternatives with
    | nil =>
      have hslot := extent_hasSlot (choice region []) scope start
      simp [lower, hslot]
    | cons first rest =>
      apply (stays_loop _ _).mpr
      apply (stays_alternatives ih tables scope start 1).mono
      apply sub_of_le
      simp only [resultSpan, positionSpan]
      omega
  | sequence region elements ih =>
    intro tables scope start
    have hlength := length_le_resultSpanAll elements
    apply Template.stays_sequence (extent_hasSlot _ scope start)
    · intro i hi
      simp only [HasResult, extent, resultSpan]
      omega
    · simp only [HasPosition, extent, positionSpan]
      omega
    · apply stays_pendingCall
      intro i hi
      rcases (sequence region elements).bindsWithin scope.slot scope.env i hi with hrange | hmem
      · exact Or.inl hrange
      · exact Or.inr hmem
    · apply (stays_elements ih tables scope.slot start 0 scope.env).mono
      apply sub_of_le
      simp only [resultSpan, positionSpan]
      omega
  | labeled region label inner ih =>
    intro tables scope start
    have hslot := extent_hasSlot (labeled region label inner) scope start
    apply (ih tables ((scope.bind label).branch scope.slot) start).mono
    apply sub_of_args
    · simp only [Scope.branch, resultSpan, positionSpan]
      omega
    · intro i hi
      rcases mem_values_insert hi with rfl | hmem
      · exact Or.inl hslot
      · exact Or.inr hmem
  | text region inner ih =>
    intro tables scope start
    apply Template.stays_text (extent_hasSlot _ scope start)
    · simp only [HasPosition, extent, positionSpan]
      omega
    · apply (ih tables (scope.branch scope.slot) (start + 1)).mono
      apply sub_of_le
      simp only [Scope.branch, resultSpan, positionSpan]
      omega
  | optional region inner ih =>
    intro tables scope start
    apply Template.stays_optional (extent_hasSlot _ scope start)
    exact ih tables (scope.branch scope.slot) start
  | repeated region quantifier inner ih =>
    intro tables scope start
    have hpos := inner.resultSpan_pos
    apply Template.stays_repeated quantifier (extent_hasSlot _ scope start)
    · simp only [HasResult, extent, resultSpan]
      omega
    · intro hleast
      simp only [HasPosition, extent, positionSpan, if_pos hleast]
      omega
    · apply (ih tables (scope.branch (scope.slot + 1)) _).mono
      apply sub_of_le
      simp only [Scope.branch, resultSpan, positionSpan]
      split <;> omega
  | lookahead region negated inner ih =>
    intro tables scope start
    apply Template.stays_lookahead negated (extent_hasSlot _ scope start)
    · simp only [HasPosition, extent, positionSpan]
      omega
    · apply (ih tables (scope.branch scope.slot) (start + 1)).mono
      apply sub_of_le
      simp only [Scope.branch, resultSpan, positionSpan]
      omega
  | predicate region negated code =>
    intro tables scope start
    exact Template.stays_predicate negated (extent_hasSlot _ scope start) fun i hi => Or.inr hi
  | action region code inner ih =>
    intro tables scope start
    rw [lower]
    split
    · rename_i hseq
      apply (ih tables (scope.withAction code) start).mono
      apply sub_of_le
      simp only [Scope.withAction, resultSpan, positionSpan, if_pos hseq]
      omega
    · rename_i hseq
      apply Template.stays_action (extent_hasSlot _ scope start)
      · simp only [HasPosition, extent, positionSpan, if_neg hseq]
        omega
      · exact inner.bindsWithin scope.slot scope.env
      · apply (ih tables (scope.branch scope.slot) (start + 1)).mono
        apply sub_of_le
        simp only [Scope.branch, resultSpan, positionSpan, if_neg hseq]
        omega
  | ruleRef region name =>
    intro tables scope start
    have hslot := extent_hasSlot (ruleRef region name) scope start
    simp [lower, hslot]
  | literal region value ignoreCase =>
    intro tables scope start
    have hslot := extent_hasSlot (literal region value ignoreCase) scope start
    simp [lower, hslot]
  | charClass region cls =>
    intro tables scope start
    have hslot := extent_hasSlot (charClass region cls) scope start
    simp [lower, hslot]
  | any region =>
    intro tables scope start
    have hslot := extent_hasSlot (any region) scope start
    simp [lower, hslot]

end Expr

/-- The lines of code from an expression in step with its scope name locals only as their rows say.
A result slot at or below the top of the scope is an argument of user code there, and a position
slot is none that was live before. -/
theorem code_works_above_its_scope (cx : Context) (scope : Scope) (e : Expr) (w : Workspace)
    (h : scope.top = w.results.top) {code : Code} {env : Env} {w' : Workspace}
    (hgen : e.generate cx scope w = .ok (code, env) w') :
    (∀ depth, code.lines depth = code.rows.map (Row.line depth)) ∧
    (∀ row ∈ code.rows, row.HidesNone) ∧
    (∀ row ∈ code.rows, ∀ role (i : Nat), .name (.result role i) ∈ row.pieces →
      role = .passed ∨ scope.top + 1 ≤ i) ∧
    ∀ row ∈ code.rows, ∀ role (j : Nat), .name (.position role j) ∈ row.pieces →
      w.positions.top < j := by
  have hlive : w.results.live = scope.slot := by
    simp only [Scope.top, SlotStack.top] at h
    omega
  have hout := (e.lowers cx scope w w.toSession w.positions.live ⟨rfl, hlive, rfl⟩).of_eq_ok hgen
  obtain ⟨-, grown, -, -, hk⟩ := hout
  obtain ⟨rfl, -⟩ := hk grown (.refl grown)
  have hstays := e.contained grown scope w.positions.live
  refine ⟨fun depth => lines_eq depth _, hidesNone_rows _, ?_, ?_⟩
  · intro row hrow role i hmem
    rcases hstays _ (mem_uses_iff.mpr ⟨row, hrow, hmem⟩) with hhas | ⟨hrole, -⟩
    · have hle : scope.slot ≤ i := hhas.1
      right
      simp only [Scope.top]
      omega
    · exact Or.inl hrole
  · intro row hrow role j hmem
    have hle : w.positions.live ≤ j := (hstays _ (mem_uses_iff.mpr ⟨row, hrow, hmem⟩)).1
    simp only [SlotStack.top]
    omega

/-- Inside an element of an outer sequence, a repetition asks a predicate about the label of the
element before, whose slot is below. -/
theorem code_works_above_its_scope_of_inner :
    let e := Expr.repeated none .oneOrMore (.sequence none [.any none,
      .predicate none false ⟨"global", "return x != 0;"⟩])
    let scope : Scope := ⟨1, ⟨[("x", 0)]⟩, none⟩
    let w : Workspace := { results := ⟨"r", "ResultPtr", 1, 1⟩,
                           positions := ⟨"p", "struct Location", 1, 1⟩ }
    ∃ code env w', e.generate ⟨.strict, none⟩ scope w = .ok (code, env) w' ∧
      (∃ row ∈ code.rows, .name (.result .passed 0) ∈ row.pieces) ∧
      (∀ row ∈ code.rows, ∀ role (i : Nat), .name (.result role i) ∈ row.pieces →
        role = .passed ∨ (1 : Int) ≤ i) ∧
      ∀ row ∈ code.rows, ∀ role (j : Nat), .name (.position role j) ∈ row.pieces →
        (0 : Int) < j := by
  intro e scope w
  have hpasses : (match e.generate ⟨.strict, none⟩ scope w with
      | .ok (code, _) _ => decide (∃ row ∈ code.rows, .name (.result .passed 0) ∈ row.pieces)
      | .error .. => false) = true := by decide +kernel
  cases hgen : e.generate ⟨.strict, none⟩ scope w with
  | error error w' =>
    rw [hgen] at hpasses
    cases hpasses
  | ok out w' =>
    rw [hgen] at hpasses
    refine ⟨out.1, out.2, w', rfl, of_decide_eq_true hpasses, ?_⟩
    exact (code_works_above_its_scope ⟨.strict, none⟩ scope e w rfl hgen).2.2

end Backtrack
