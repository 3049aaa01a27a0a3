import Backtrack.Proofs.Generation.ClosedForm
import Backtrack.Proofs.Generation.Emission

/-!
# The discipline of generation

Generation leaves one more result slot, no more position slot and the depth of the output as it
was. Its assertions hold, so no use of a slot stack ever goes wrong.
-/

namespace Backtrack

set_option autoImplicit false

theorem RuleFunction.lines_ending (function : RuleFunction) (h : function.result = 0) :
    ∃ front, function.lines.toList = front ++ ["  return r0;", "\x7d"] := by
  have hreturn : Lines.placed 1 ("return " ++ (Slot.result 0).name ++ ";") = "  return r0;" := by
    decide +kernel
  have hclose : Lines.placed 0 "\x7d" = "\x7d" := Lines.placed_zero _
  rw [RuleFunction.lines, h, ← hreturn, ← hclose]
  exact ⟨_, List.append_assoc _ [_] [_]⟩

/-- In step with its scope, generation keeps the discipline of both stacks, and the output that it
adds its lines to is at the end as deep as before; a rule leaves both stacks empty. Assertions may
be checked: an internal error is also what a position released out of order, or an expression inside
that is generated out of step, would end in. -/
theorem generation_keeps_discipline (cx : Context) (scope : Scope) (e : Expr) (w : Workspace)
    (h : scope.top = w.results.top) :
    (∀ cause w', e.generate cx scope w ≠ .error (.internal cause) w') ∧
    (∀ code env w', e.generate cx scope w = .ok (code, env) w' →
      w'.results.top = scope.top + 1 ∧ w'.positions.top = w.positions.top ∧
      ∀ out, e.emit cx scope out w =
        .ok (env, ⟨out.depth, out.toList ++ code.lines out.depth⟩) w') ∧
    (∀ out env out' w', e.emit cx scope out w = .ok (env, out') w' → out'.depth = out.depth) ∧
    ∀ (policy : Policy) (session : Session) (checked : Bool) (rule : Rule),
      (∀ cause w', rule.generate policy { toSession := session, checked := checked } ≠
        .error (.internal cause) w') ∧
      (∀ cause, (session.compileRule policy rule).1 ≠ .error (.internal cause)) ∧
      ∀ function, (session.compileRule policy rule).1 = .ok function →
        function.results.top = -1 ∧ function.positions.top = -1 ∧
        ∃ front, function.lines.toList = front ++ ["  return r0;", "\x7d"] := by
  have hlive : w.results.live = scope.slot := by
    simp only [Scope.top, SlotStack.top] at h
    omega
  have hgen := e.lowers cx scope w w.toSession w.positions.live ⟨rfl, hlive, rfl⟩
  refine ⟨hgen.not_internal, ?_, ?_, ?_⟩
  · intro code env w' hok
    obtain ⟨-, grown, -, hat, -⟩ := hgen.of_eq_ok hok
    refine ⟨?_, ?_, fun out => (e.emitted cx).of_generate hok out⟩
    · simp only [SlotStack.top, Scope.top, hat.results_live]
      omega
    · simp only [SlotStack.top, hat.positions_live]
  · intro out env out' w' hemit
    obtain ⟨code, -, rfl⟩ := (e.emitted cx).of_emit hemit
    rfl
  · intro policy session checked rule
    refine ⟨(rule.ensures_generate policy ⟨rfl, rfl, rfl⟩).not_internal, ?_⟩
    rcases session.compileRule_cases policy rule with
      ⟨function, grown, hrun, hresult, hresults, hpositions, -⟩ | ⟨diagnostic, grown, hrun⟩
    · rw [hrun]
      refine ⟨nofun, ?_⟩
      intro function' he
      cases he
      refine ⟨?_, ?_, function.lines_ending hresult⟩
      · simp only [SlotStack.top, hresults]
        rfl
      · simp only [SlotStack.top, hpositions]
        rfl
    · rw [hrun]
      exact ⟨nofun, nofun⟩

/-- Three slots below a repeated sequence, with assertions checked, and an output three levels
deep. -/
theorem generation_keeps_discipline_of_repeated :
    let scope : Scope := ⟨3, {}, none⟩
    let w : Workspace := { results := { SlotStack.results with live := 3 }, checked := true }
    let e := Expr.repeated none (.range 2 (some 4)) (.sequence none [.any none, .choice none []])
    scope.top = w.results.top ∧
      (∀ cause w', e.generate ⟨.strict, none⟩ scope w ≠ .error (.internal cause) w') ∧
      ∃ code env w', e.generate ⟨.strict, none⟩ scope w = .ok (code, env) w' ∧
        w'.results.top = 3 ∧ w'.positions.top = -1 ∧
        e.emit ⟨.strict, none⟩ scope ⟨3, []⟩ w = .ok (env, ⟨3, code.lines 3⟩) w' := by
  intro scope w e
  obtain ⟨hinternal, hok, -⟩ := generation_keeps_discipline ⟨.strict, none⟩ scope e w rfl
  obtain ⟨code, env, w', hgenerate⟩ : ∃ code env w',
      e.generate ⟨.strict, none⟩ scope w = .ok (code, env) w' := ⟨_, _, _, rfl⟩
  obtain ⟨hresults, hpositions, hemit⟩ := hok code env w' hgenerate
  exact ⟨rfl, hinternal, code, env, w', hgenerate, hresults, hpositions, hemit ⟨3, []⟩⟩

end Backtrack
