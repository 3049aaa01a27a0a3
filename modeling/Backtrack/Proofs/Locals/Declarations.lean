import Backtrack.Proofs.Locals.Peaks

/-!
# Declarations of locals

The code of an expression assigns every result slot that the expression needs and saves every
position slot. So what a rule declares, which is what was ever live, is what its body uses.
-/

namespace Backtrack

set_option autoImplicit false

open Code

/-- The code assigns all result slots of the extent and saves all its positions. -/
structure Code.Fills (code : Code) (x : Extent) : Prop where
  results : ∀ i, x.HasResult i → .result .assigned i ∈ code.uses
  positions : ∀ j, x.HasPosition j → .position .saved j ∈ code.uses

namespace Code.Fills

variable {code inner first second : Code} {x y z : Extent} {args : List Nat}
variable {slot results start positions : Nat}

theorem inside (h : inner.Fills x) (hinner : inner.uses ⊆ code.uses) : code.Fills x where
  results i hi := hinner (h.results i hi)
  positions j hj := hinner (h.positions j hj)

theorem sub (h : code.Fills x) (hresults : ∀ i, y.HasResult i → x.HasResult i)
    (hpositions : ∀ j, y.HasPosition j → x.HasPosition j) : code.Fills y where
  results i hi := h.results i (hresults i hi)
  positions j hj := h.positions j (hpositions j hj)

theorem loop (h : code.Fills x) (purpose : Loop) : (Code.loop purpose code).Fills x :=
  h.inside (by simp)

theorem both (hfirst : first.Fills x) (hsecond : second.Fills y)
    (hresults : ∀ i, z.HasResult i → x.HasResult i ∨ y.HasResult i)
    (hpositions : ∀ j, z.HasPosition j → x.HasPosition j ∨ y.HasPosition j) :
    (first ++ second).Fills z := by
  constructor
  · intro i hi
    rw [uses_append, List.mem_append]
    exact (hresults i hi).imp (hfirst.results i) (hsecond.results i)
  · intro j hj
    rw [uses_append, List.mem_append]
    exact (hpositions j hj).imp (hfirst.positions j) (hsecond.positions j)

/-- One more position is saved. -/
theorem saving (h : code.Fills ⟨args, slot, results, start + 1, positions⟩)
    (hsaved : .position .saved start ∈ code.uses) :
    code.Fills ⟨args, slot, results, start, positions + 1⟩ := by
  refine ⟨h.results, fun j hj => ?_⟩
  simp only [Extent.HasPosition] at hj
  by_cases hstart : j = start
  · rw [hstart]
    exact hsaved
  · apply h.positions
    simp only [Extent.HasPosition]
    omega

/-- One more result is assigned. -/
theorem assigning (h : code.Fills ⟨args, slot + 1, results, start, positions⟩)
    (hassigned : .result .assigned slot ∈ code.uses) :
    code.Fills ⟨args, slot, results + 1, start, positions⟩ := by
  refine ⟨fun i hi => ?_, h.positions⟩
  simp only [Extent.HasResult] at hi
  by_cases hslot : i = slot
  · rw [hslot]
    exact hassigned
  · apply h.results
    simp only [Extent.HasResult]
    omega

end Code.Fills

attribute [local simp] Operand.uses Condition.uses Instruction.uses

namespace Template

variable {inner : Code} {x : Extent} {args : List Nat} {slot results start positions : Nat}

theorem fills_named (slot expected : Nat) (h : inner.Fills x) :
    (named slot expected inner).Fills x :=
  h.inside (by simp [named])

theorem fills_text (h : inner.Fills ⟨args, slot, results, start + 1, positions⟩) :
    (text slot start inner).Fills ⟨args, slot, results, start, positions + 1⟩ := by
  have hinside := h.inside (show _ ⊆ (text slot start inner).uses by simp [text])
  exact hinside.saving (by simp [text])

theorem fills_action (call : Call)
    (h : inner.Fills ⟨args, slot, results, start + 1, positions⟩) :
    (action slot start call inner).Fills ⟨args, slot, results, start, positions + 1⟩ := by
  have hinside := h.inside (show _ ⊆ (action slot start call inner).uses by simp [action])
  exact hinside.saving (by simp [action])

theorem fills_optional (slot : Nat) (h : inner.Fills x) : (optional slot inner).Fills x :=
  h.inside (by simp [optional])

theorem fills_lookahead (negated : Bool)
    (h : inner.Fills ⟨args, slot, results, start + 1, positions⟩) :
    (lookahead negated slot start inner).Fills ⟨args, slot, results, start, positions + 1⟩ := by
  have hinside := h.inside (show _ ⊆ (lookahead negated slot start inner).uses by
    cases negated <;> simp [lookahead])
  apply hinside.saving
  cases negated <;> simp [lookahead]

theorem fills_gather (most : Option UInt32)
    (h : inner.Fills ⟨args, slot + 1, results, start, positions⟩) :
    (gather most slot inner).Fills ⟨args, slot, results + 1, start, positions⟩ := by
  have hinner : inner.uses ⊆ (gather most slot inner).uses := by
    intro use hmem
    cases most <;> simp [gather, round, hmem]
  exact (h.inside hinner).assigning (by simp [gather])

theorem fills_repeated (quantifier : Quantifier) (h : inner.Fills ⟨args, slot + 1, results,
      if 0 < quantifier.least then start + 1 else start, positions⟩) :
    (repeated quantifier slot start inner).Fills ⟨args, slot, results + 1, start,
      if 0 < quantifier.least then positions + 1 else positions⟩ := by
  unfold repeated
  split at h
  · rename_i hleast
    rw [if_pos hleast, if_pos hleast]
    have hgather := (fills_gather quantifier.most h).inside (show _ ⊆ (instr (.save start) ++
      gather quantifier.most slot inner ++ enough quantifier.least slot start).uses by simp)
    exact hgather.saving (by simp)
  · rename_i hleast
    rw [if_neg hleast, if_neg hleast]
    exact fills_gather quantifier.most h

theorem fills_element (done slot start : Nat) (h : inner.Fills x) :
    (element done slot start inner).Fills x :=
  h.inside (by simp [element])

theorem fills_sequence (count : Nat) (call : Code)
    (h : inner.Fills ⟨args, slot, results, start + 1, positions⟩) :
    (sequence count slot start call inner).Fills
      ⟨args, slot, max 1 results, start, positions + 1⟩ := by
  have hinside := h.inside (show _ ⊆ (sequence count slot start call inner).uses by
    simp [sequence])
  apply Code.Fills.saving _ (by simp [sequence])
  refine ⟨fun i hi => ?_, hinside.positions⟩
  simp only [Extent.HasResult] at hi
  by_cases hslot : i = slot
  · simp [sequence, hslot]
  · apply hinside.results
    simp only [Extent.HasResult]
    omega

theorem fills_alternative (number slot : Nat) (h : inner.Fills x) :
    (alternative number slot inner).Fills x :=
  h.inside (by simp [alternative])

end Template

namespace Expr

open Extent Fills

def Filled (e : Expr) : Prop :=
  ∀ tables scope start, (e.lower tables scope start).Fills (e.extent scope start)

theorem fills_leaf {e : Expr} {scope : Scope} {start : Nat} {code : Code}
    (hresults : e.resultSpan = 1) (hpositions : e.positionSpan = 0)
    (h : .result .assigned scope.slot ∈ code.uses) : code.Fills (e.extent scope start) := by
  constructor
  · intro i hi
    simp only [HasResult, extent, hresults] at hi
    obtain rfl : i = scope.slot := by omega
    exact h
  · intro j hj
    simp only [HasPosition, extent, hpositions] at hj
    omega

theorem fills_elements {elements : List Expr} (he : ∀ e ∈ elements, e.Filled)
    (tables : Session) (slot start done : Nat) (env : Env) (args : List Nat) :
    (lowerElements tables slot start done env elements).Fills
      ⟨args, slot + done, resultSpanAll elements, start + 1, positionSpanMost elements⟩ := by
  induction elements generalizing done env with
  | nil =>
    constructor
    · intro i hi
      simp only [HasResult, resultSpanAll] at hi
      omega
    · intro j hj
      simp only [HasPosition, positionSpanMost] at hj
      omega
  | cons first rest ih =>
    obtain ⟨hfirst, hrest⟩ := List.forall_mem_cons.mp he
    have hpos := first.resultSpan_pos
    have hone := hfirst tables ⟨slot + done, env, none⟩ (start + 1)
    apply (Template.fills_element done slot start hone).both
      (ih hrest (done + 1) (first.envAfter (slot + done) env))
    · intro i hi
      simp only [HasResult, extent, resultSpanAll] at hi ⊢
      omega
    · intro j hj
      simp only [HasPosition, extent, positionSpanMost] at hj ⊢
      omega

theorem fills_alternatives {alternatives : List Expr} (hne : alternatives ≠ [])
    (he : ∀ e ∈ alternatives, e.Filled) (tables : Session) (scope : Scope)
    (start number : Nat) :
    (lowerAlternatives tables scope start number alternatives).Fills
      ⟨scope.env.values, scope.slot, resultSpanFirst alternatives, start,
        positionSpanMost alternatives⟩ := by
  induction alternatives generalizing number with
  | nil => exact absurd rfl hne
  | cons first rest ih =>
    obtain ⟨hfirst, hrest⟩ := List.forall_mem_cons.mp he
    have hone := hfirst tables (scope.branch scope.slot) start
    cases rest with
    | nil =>
      have hlast := hone.inside (show _ ⊆ (lowerAlternatives tables scope start number
        [first]).uses by simp [lowerAlternatives])
      simpa [extent, Scope.branch, resultSpanFirst, positionSpanMost] using hlast
    | cons second others =>
      have hothers := ih (List.cons_ne_nil _ _) hrest (number + 1)
      rw [lowerAlternatives]
      apply (Template.fills_alternative number scope.slot hone).both hothers
      · intro i hi
        simp only [HasResult, extent, Scope.branch, resultSpanFirst] at hi ⊢
        omega
      · intro j hj
        simp only [HasPosition, extent, positionSpanMost] at hj ⊢
        omega

theorem filled (e : Expr) : e.Filled := by
  induction e using Expr.induction with
  | named region name inner ih =>
    intro tables scope start
    exact Template.fills_named scope.slot _ (ih tables scope start)
  | choice region alternatives ih =>
    intro tables scope start
    cases alternatives with
    | nil => exact fills_leaf rfl rfl (by simp [lower])
    | cons first rest =>
      have h := fills_alternatives (List.cons_ne_nil first rest) ih tables scope start 1
      have hpos := first.resultSpan_pos
      apply (h.loop .choice).sub
      · intro i hi
        simp only [HasResult, extent, resultSpan, resultSpanFirst] at hi ⊢
        omega
      · exact fun j hj => hj
  | sequence region elements ih =>
    intro tables scope start
    exact Template.fills_sequence _ _ (fills_elements ih tables scope.slot start 0 scope.env _)
  | labeled region label inner ih =>
    intro tables scope start
    have h := ih tables ((scope.bind label).branch scope.slot) start
    exact h.sub (fun i hi => hi) fun j hj => hj
  | text region inner ih =>
    intro tables scope start
    exact Template.fills_text (ih tables (scope.branch scope.slot) (start + 1))
  | optional region inner ih =>
    intro tables scope start
    exact Template.fills_optional scope.slot (ih tables (scope.branch scope.slot) start)
  | repeated region quantifier inner ih =>
    intro tables scope start
    exact Template.fills_repeated quantifier (ih tables (scope.branch (scope.slot + 1)) _)
  | lookahead region negated inner ih =>
    intro tables scope start
    exact Template.fills_lookahead negated (ih tables (scope.branch scope.slot) (start + 1))
  | predicate region negated code =>
    intro tables scope start
    apply fills_leaf rfl rfl
    cases negated <;> simp [lower, Template.predicate]
  | action region code inner ih =>
    intro tables scope start
    rw [lower]
    split
    · rename_i hseq
      simp only [extent, positionSpan, if_pos hseq]
      exact ih tables (scope.withAction code) start
    · rename_i hseq
      simp only [extent, positionSpan, if_neg hseq]
      exact Template.fills_action _ (ih tables (scope.branch scope.slot) (start + 1))
  | ruleRef region name =>
    intro tables scope start
    exact fills_leaf rfl rfl (by simp [lower])
  | literal region value ignoreCase =>
    intro tables scope start
    exact fills_leaf rfl rfl (by simp [lower])
  | charClass region cls =>
    intro tables scope start
    exact fills_leaf rfl rfl (by simp [lower])
  | any region =>
    intro tables scope start
    exact fills_leaf rfl rfl (by simp [lower])

theorem lower_result_iff (e : Expr) (tables : Session) (i : Nat) :
    (∃ role, .result role i ∈ (e.lower tables Scope.root 0).uses) ↔ i < e.resultSpan := by
  constructor
  · intro h
    obtain ⟨role, hmem⟩ := h
    -- No label is in sight around the rule, so that user code gets slots of the extent only.
    rcases e.contained tables Scope.root 0 _ hmem with hhas | ⟨-, hargs⟩
    · simpa [extent, HasResult, Scope.root] using hhas
    · simp [extent, Scope.root, OrderedMap.values] at hargs
  · intro h
    refine ⟨.assigned, (e.filled tables Scope.root 0).results i ?_⟩
    simpa [extent, HasResult, Scope.root] using h

theorem lower_position_iff (e : Expr) (tables : Session) (j : Nat) :
    (∃ role, .position role j ∈ (e.lower tables Scope.root 0).uses) ↔ j < e.positionSpan := by
  constructor
  · intro h
    obtain ⟨role, hmem⟩ := h
    simpa [Use.Within, extent, HasPosition] using e.contained tables Scope.root 0 _ hmem
  · intro h
    refine ⟨.saved, (e.filled tables Scope.root 0).positions j ?_⟩
    simpa [extent, HasPosition] using h

theorem lower_saves_iff (e : Expr) (tables : Session) (j : Nat) :
    .position .saved j ∈ (e.lower tables Scope.root 0).uses ↔ j < e.positionSpan := by
  constructor
  · exact fun hmem => (e.lower_position_iff tables j).mp ⟨.saved, hmem⟩
  · intro h
    apply (e.filled tables Scope.root 0).positions
    simpa [extent, HasPosition] using h

end Expr

theorem Rule.stands_generate (policy : Policy) (rule : Rule) {w : Workspace}
    (h : w.Stands 0 0 0 0) :
    Gen.Ensures (rule.generate policy) w fun function w' =>
      w'.Stands 0 0 rule.expression.resultSpan rule.expression.positionSpan ∧
        function.results = w'.results ∧ function.positions = w'.positions := by
  apply (rule.expression.reaches ⟨policy, rule.region⟩ Scope.root w 0 0 0 h).bind
  intro _ w₁ h₁
  apply (Gen.stands_popResult h₁).bind
  intro _ w₂ h₂
  apply (Gen.ensures_assertLive h₂.results_live).bind
  intro _ w₃ h₃
  subst h₃
  apply (Gen.ensures_assertLive h₂.positions_live).bind
  intro _ w₄ h₄
  subst h₄
  refine Gen.ensures_of_ok rfl ⟨?_, rfl, rfl⟩
  simpa [Scope.root] using h₂

theorem Session.generate_of_compileRule {policy : Policy} {session grown : Session} {rule : Rule}
    {function : RuleFunction} (h : session.compileRule policy rule = (.ok function, grown)) :
    ∃ w, rule.generate policy { toSession := session } = .ok function w := by
  unfold compileRule at h
  split at h
  · rename_i function' w hrun
    cases h
    exact ⟨w, hrun⟩
  · cases h

/-- The declaration of locals of one type. -/
def Slot.declaration (type : String) (slots : List Slot) : String :=
  type ++ " " ++ ", ".intercalate (slots.map Slot.name) ++ ";"

theorem SlotStack.declaration?_results (live : Nat) {peak : Nat} (h : 0 < peak) :
    ({ SlotStack.results with live := live, peak := peak } : SlotStack).declaration? =
      some (Slot.declaration "ResultPtr" ((List.range peak).map .result)) := by
  rw [declaration?, if_neg (by dsimp only; omega), Slot.declaration, List.map_map]
  rfl

theorem SlotStack.declaration?_positions (live peak : Nat) :
    ({ SlotStack.positions with live := live, peak := peak } : SlotStack).declaration? =
      if peak = 0 then none
      else some (Slot.declaration "struct Location" ((List.range peak).map .position)) := by
  rw [declaration?, Slot.declaration, List.map_map]
  rfl

theorem RuleFunction.lines_eq (function : RuleFunction) (h : function.result = 0) :
    function.lines.toList =
      (RuleName.signature function.name ++ " \x7b") ::
      (function.results.declaration?.toList.map (Lines.placed 1) ++
        (function.positions.declaration?.toList.map (Lines.placed 1) ++
          "" :: (function.body.lines 1 ++ ["  return r0;", "\x7d"]))) := by
  have hreturn : Lines.placed 1 ("return " ++ (Slot.result 0).name ++ ";") = "  return r0;" := by
    decide +kernel
  simp [RuleFunction.lines, h, Lines.empty, Lines.enter, Lines.push, Lines.indent, Lines.extend,
    Lines.append, Lines.leave, Lines.dedent, hreturn]

/-- The lines of a compiled rule. -/
theorem Session.lines_compileRule {policy : Policy} {session grown : Session} {rule : Rule}
    {function : RuleFunction} (h : session.compileRule policy rule = (.ok function, grown)) :
    function.lines.toList =
      (RuleName.signature function.name ++ " \x7b") ::
      Lines.placed 1 (Slot.declaration "ResultPtr"
        ((List.range rule.expression.resultSpan).map .result)) ::
      (if rule.expression.positionSpan = 0 then []
        else [Lines.placed 1 (Slot.declaration "struct Location"
          ((List.range rule.expression.positionSpan).map .position))]) ++
      "" :: function.body.lines 1 ++ ["  return r0;", "\x7d"] := by
  obtain ⟨w, hgen⟩ := Session.generate_of_compileRule h
  obtain ⟨hstands, hresults, hpositions⟩ :=
    (rule.stands_generate policy ⟨rfl, rfl, Nat.le_refl 0, Nat.le_refl 0⟩).of_eq_ok hgen
  rw [function.lines_eq (Session.result_compileRule h), hresults, hpositions, hstands.results,
    hstands.positions, SlotStack.declaration?_results 0 rule.expression.resultSpan_pos,
    SlotStack.declaration?_positions]
  split
  · simp
  · simp

/-- A rule declares the result slots and the position slots that its body uses, no more and no
fewer. -/
theorem declared_locals_are_those_used (policy : Policy) (session : Session) (rule : Rule)
    {function : RuleFunction} {grown : Session}
    (h : session.compileRule policy rule = (.ok function, grown)) :
    ∃ last count,
      function.lines.toList =
        (RuleName.signature function.name ++ " \x7b") ::
        Lines.placed 1 (Slot.declaration "ResultPtr" ((List.range (last + 1)).map .result)) ::
        (if count = 0 then []
          else [Lines.placed 1
            (Slot.declaration "struct Location" ((List.range count).map .position))]) ++
        "" :: function.body.rows.map (Row.line 1) ++ ["  return r0;", "\x7d"] ∧
      (∀ row ∈ function.body.rows, row.HidesNone) ∧
      (∀ i, (∃ role, ∃ row ∈ function.body.rows, .name (.result role i) ∈ row.pieces) ↔
        i ≤ last) ∧
      (∀ j, (∃ role, ∃ row ∈ function.body.rows, .name (.position role j) ∈ row.pieces) ↔
        j < count) ∧
      (count = 0 ↔ ∀ j, ¬ ∃ row ∈ function.body.rows, .name (.position .saved j) ∈ row.pieces) := by
  obtain ⟨hbody, -⟩ := Session.codeOf_compileRule h (.refl grown)
  have hpos := rule.expression.resultSpan_pos
  refine ⟨rule.expression.resultSpan - 1, rule.expression.positionSpan, ?_, hidesNone_rows _, ?_,
    ?_, ?_⟩
  · have hlast : rule.expression.resultSpan - 1 + 1 = rule.expression.resultSpan := by omega
    rw [Session.lines_compileRule h, lines_eq, hlast]
  · intro i
    have hiff := rule.expression.lower_result_iff grown i
    simp only [← hbody, mem_uses_iff] at hiff
    rw [hiff]
    omega
  · intro j
    have hiff := rule.expression.lower_position_iff grown j
    simpa only [← hbody, mem_uses_iff] using hiff
  · have hiff := rule.expression.lower_saves_iff grown
    simp only [← hbody, mem_uses_iff] at hiff
    simp only [hiff]
    constructor
    · intro hnone j
      omega
    · intro hnone
      have hzero := hnone 0
      omega

/-- A repetition, inside a sequence, of a sequence whose predicate gets the label of the element
before. -/
theorem declared_locals_are_those_used_of_nested :
    let rule : Rule := ⟨"R", .sequence none [.labeled none "x" (.any none),
      .repeated none .zeroOrMore (.sequence none [.any none,
        .predicate none false ⟨"global", "return x != 0;"⟩])], none⟩
    ∃ function grown, ({} : Session).compileRule .strict rule = (.ok function, grown) ∧
      (function.lines.toList.drop 1).take 2 =
        ["  ResultPtr r0, r1, r2, r3;", "  struct Location p0, p1;"] ∧
      (∀ i, (∃ role, ∃ row ∈ function.body.rows, .name (.result role i) ∈ row.pieces) ↔ i ≤ 3) ∧
      ∀ j, (∃ role, ∃ row ∈ function.body.rows, .name (.position role j) ∈ row.pieces) ↔
        j < 2 := by
  intro rule
  have hok : (({} : Session).compileRule .strict rule).1.isOk = true := by decide +kernel
  obtain ⟨function, grown, hrule⟩ := Session.eq_ok_of_isOk hok
  obtain ⟨last, count, hlines, -, hresults, hpositions, -⟩ :=
    declared_locals_are_those_used .strict {} rule hrule
  obtain ⟨hbody, -⟩ := Session.codeOf_compileRule hrule (.refl grown)
  have hslots := rule.expression.lower_result_iff grown
  have hsaves := rule.expression.lower_position_iff grown
  simp only [← hbody, mem_uses_iff, hresults, hpositions] at hslots hsaves
  have hlast : last = 3 := by
    have hthree : 3 ≤ last ↔ 3 < 4 := hslots 3
    have hfour : 4 ≤ last ↔ 4 < 4 := hslots 4
    omega
  have hcount : count = 2 := by
    have hone : 1 < count ↔ 1 < 2 := hsaves 1
    have htwo : 2 < count ↔ 2 < 2 := hsaves 2
    omega
  subst hlast hcount
  refine ⟨function, grown, hrule, ?_, hresults, hpositions⟩
  have hdeclared : [Lines.placed 1 (Slot.declaration "ResultPtr" ((List.range 4).map .result)),
      Lines.placed 1 (Slot.declaration "struct Location" ((List.range 2).map .position))] =
      ["  ResultPtr r0, r1, r2, r3;", "  struct Location p0, p1;"] := by decide +kernel
  rw [hlines]
  exact hdeclared

end Backtrack
