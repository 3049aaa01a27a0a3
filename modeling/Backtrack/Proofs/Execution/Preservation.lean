import Backtrack.Proofs.Generation.ClosedForm
import Backtrack.Proofs.Execution.Parsing
import Backtrack.Proofs.Execution.Simulation
import Backtrack.Proofs.Listing.Lines

/-!
# Generated code parses

Main statement: the lines generated for an expression are read as code that ends, with the failure
value in its slot and the input back where it was, exactly when the expression fails; and it ends
with the value of a match, and the input behind it, exactly when the expression matches so.
-/

namespace Backtrack

set_option autoImplicit false

variable {Pos : Type}

/-- The labels of a scope, of which nothing is known. -/
def Sight.unknown (env : Env) : Sight Pos := env.mapValues fun slot => (slot, .pending)

namespace Sight

@[simp] theorem slots_unknown (env : Env) : (unknown env : Sight Pos).slots = env := by
  obtain ⟨entries⟩ := env
  simp [slots, unknown, OrderedMap.mapValues, Function.comp_def]

theorem held_unknown (env : Env) (slot : Nat) (s : State Pos) : (unknown env).Held slot s := by
  intro label t value hmem
  simp [unknown, OrderedMap.mapValues] at hmem

end Sight

/-- How a run of code and a parse go together. -/
inductive Accords (slot start : Nat) (s : State Pos) :
    Ending × State Pos → Parse Pos (Value Pos) → Prop where
  | cut (s' : State Pos) : Accords slot start s (.cut, s') .cut
  | failed {s' : State Pos} (kept : Kept slot start s s') (result : s'.results slot = none)
      (back : s'.current = s.current) : Accords slot start s (.done, s') .failed
  | matched {s' : State Pos} {value : Value Pos} (kept : Kept slot start s s')
      (result : s'.results slot = some value) :
      Accords slot start s (.done, s') (.matched value s'.current)

theorem Follows.accords {sight : Sight Pos} {labels labels' : List String} {env : Env}
    {slot start : Nat} {s : State Pos} {out : Ending × State Pos} {a : Attempt Pos (Value Pos)}
    {parse : Parse Pos (Value Pos)} (h : Follows sight labels env slot start s out a)
    (hparse : a.outcome.Forgets labels' parse) : Accords slot start s out parse := by
  cases h with
  | cut log =>
    cases hparse
    exact .cut _
  | failed log kept result back =>
    cases hparse
    exact .failed kept result back
  | matched log kept result slots held since =>
    cases hparse
    exact .matched kept result

theorem Accords.ne_left {slot start : Nat} {s : State Pos} {out : Ending × State Pos}
    {parse : Parse Pos (Value Pos)} (h : Accords slot start s out parse) : out.1 ≠ .left := by
  cases h <;> nofun

/-- A run that ends went along with a failure or with a match. -/
theorem Accords.of_done {slot start : Nat} {s s' : State Pos} {parse : Parse Pos (Value Pos)}
    (h : Accords slot start s (.done, s') parse) :
    Kept slot start s s' ∧
      (s'.results slot = none ∧ s'.current = s.current ∧ parse = .failed ∨
        ∃ value, s'.results slot = some value ∧ parse = .matched value s'.current) := by
  cases h with
  | failed kept result back => exact ⟨kept, Or.inl ⟨result, back, rfl⟩⟩
  | matched kept result => exact ⟨kept, Or.inr ⟨_, result, rfl⟩⟩

/-- The closed form runs as the expression parses. -/
theorem Expr.lower_accords {tables : Session} {scope : Scope} {e : Expr} {start : Nat}
    (hw : (e.lower tables scope start).Within tables) (rt : Runtime Pos) (n : Nat)
    (s : State Pos) :
    Accords scope.slot start s ((e.lower tables scope start).run tables rt n s)
      (e.parse rt n scope.env.keys s.current) := by
  obtain ⟨slot, env, action⟩ := scope
  have h := e.simulated tables rt n slot start action (Sight.unknown env) s
    (Sight.held_unknown env slot s)
  have hparse := e.parsed rt n s.silent (Sight.unknown env).bindings action s.current
  rw [Sight.slots_unknown] at h
  rw [Sight.keys_bindings, Sight.slots_unknown] at hparse
  exact (h hw).accords hparse

/-- Code from an expression in step with its scope, run with the tables as they are at the end. -/
theorem Expr.generated_accords {cx : Context} {scope : Scope} {e : Expr} {w : Workspace}
    (h : scope.top = w.results.top) {code : Code} {env : Env} {w' : Workspace}
    (hgen : e.generate cx scope w = .ok (code, env) w') {tables : Session}
    (hext : w'.toSession.Extends tables) (rt : Runtime Pos) (n : Nat) (s : State Pos) :
    Accords scope.slot w.positions.live s (code.run tables rt n s)
      (e.parse rt n scope.env.keys s.current) := by
  have hlive : w.results.live = scope.slot := by
    simp only [Scope.top, SlotStack.top] at h
    omega
  have hout := (e.lowers cx scope w w.toSession w.positions.live ⟨rfl, hlive, rfl⟩).of_eq_ok hgen
  obtain ⟨-, grown, -, hat, hk⟩ := hout
  obtain rfl := hat.session_eq
  obtain ⟨rfl, hw⟩ := hk tables hext
  exact Expr.lower_accords hw rt n s

/-- The lines printed for an expression that is in step with its scope are read as code that runs
as the expression parses. -/
theorem code_preserves_meaning (cx : Context) (scope : Scope) (e : Expr) (w : Workspace)
    (h : scope.top = w.results.top) {code : Code} {env : Env} {w' : Workspace}
    (hgen : e.generate cx scope w = .ok (code, env) w') {tables : Session}
    (hext : w'.toSession.Extends tables) (depth : Nat) (rt : Runtime Pos) (s : State Pos) :
    ∃ read, Listing.code? (code.lines depth) = some read ∧
      (e.Fails rt scope.env.keys s.current ↔
        ∃ n s', read.run tables rt n s = (.done, s') ∧ s'.results scope.slot = none ∧
          s'.current = s.current) ∧
      (∀ value stop, e.Matches rt scope.env.keys s.current value stop ↔
        ∃ n s', read.run tables rt n s = (.done, s') ∧ s'.results scope.slot = some value ∧
          s'.current = stop) ∧
      (∀ n s', read.run tables rt n s = (.done, s') →
        (s'.results scope.slot = none → s'.current = s.current) ∧
        Kept scope.slot w.positions.live s s') ∧
      (∀ n, (read.run tables rt n s).1 ≠ .left) ∧
      ∀ value stop, e.Matches rt scope.env.keys s.current value stop →
        ¬ e.Fails rt scope.env.keys s.current := by
  refine ⟨code.plain, Listing.code?_lines code depth, ?_⟩
  have haccords : ∀ n s, Accords scope.slot w.positions.live s (code.plain.run tables rt n s)
      (e.parse rt n scope.env.keys s.current) := by
    intro n s
    rw [Code.run_plain]
    exact Expr.generated_accords h hgen hext rt n s
  refine ⟨⟨?_, ?_⟩, fun value stop => ⟨?_, ?_⟩, ?_, ?_, ?_⟩
  · rintro ⟨n, hn⟩
    have hrun := haccords n s
    rw [hn] at hrun
    generalize hout : code.plain.run tables rt n s = out at hrun
    cases hrun with
    | failed kept result back => exact ⟨n, _, hout, result, back⟩
  · rintro ⟨n, s', hrun, hresult, -⟩
    obtain ⟨-, ⟨-, -, hparse⟩ | ⟨value, hvalue, -⟩⟩ := (hrun ▸ haccords n s).of_done
    · exact ⟨n, hparse⟩
    · rw [hresult] at hvalue
      cases hvalue
  · rintro ⟨n, hn⟩
    have hrun := haccords n s
    rw [hn] at hrun
    generalize hout : code.plain.run tables rt n s = out at hrun
    cases hrun with
    | matched kept result => exact ⟨n, _, hout, result, rfl⟩
  · rintro ⟨n, s', hrun, hresult, rfl⟩
    obtain ⟨-, ⟨hnone, -, -⟩ | ⟨value', hvalue, hparse⟩⟩ := (hrun ▸ haccords n s).of_done
    · rw [hresult] at hnone
      cases hnone
    · rw [hresult] at hvalue
      cases hvalue
      exact ⟨n, hparse⟩
  · intro n s' hrun
    obtain ⟨kept, ⟨-, back, -⟩ | ⟨value, hvalue, -⟩⟩ := (hrun ▸ haccords n s).of_done
    · exact ⟨fun _ => back, kept⟩
    · refine ⟨fun hnone => ?_, kept⟩
      rw [hvalue] at hnone
      cases hnone
  · exact fun n => (haccords n s).ne_left
  · exact fun _ _ hmatches => hmatches.not_fails

/-- Two bytes of input, of which a sequence takes one and a repetition what is left. -/
theorem code_preserves_meaning_of_pair :
    let e := Expr.sequence none [.any none, .repeated none .zeroOrMore (.any none)]
    let rt : Runtime Nat := ⟨fun _ p => if p < 2 then some (.token p, p + 1) else none,
      fun _ _ => true⟩
    let s : State Nat := ⟨fun _ => none, fun _ => 0, 0, 0, []⟩
    ∃ code env w', e.generate ⟨.strict, none⟩ Scope.root {} = .ok (code, env) w' ∧
      ∃ read, Listing.code? (code.lines 1) = some read ∧
        ∃ n s', read.run w'.toSession rt n s = (.done, s') ∧
          s'.results 0 = some (.wrapped 0 2 [some (.token 0), some (.array [some (.token 1)])]) ∧
          s'.current = 2 := by
  intro e rt s
  obtain ⟨code, env, w', hgen⟩ : ∃ code env w',
      e.generate ⟨.strict, none⟩ Scope.root {} = .ok (code, env) w' := ⟨_, _, _, rfl⟩
  obtain ⟨read, hread, -, hmatches, -⟩ :=
    code_preserves_meaning ⟨.strict, none⟩ Scope.root e {} rfl hgen (.refl _) 1 rt s
  exact ⟨code, env, w', hgen, read, hread, (hmatches _ 2).mp ⟨2, rfl⟩⟩

end Backtrack
