import Backtrack.Parser.Files
import Backtrack.Proofs.Generation.ClosedForm
import Backtrack.Proofs.Generation.Growth

/-!
# Strict and collecting generation

Both ways to treat warnings go through the same workspaces up to the first warning. There the
strict one stops, and the collecting one only makes a note and goes on.
-/

namespace Backtrack

set_option autoImplicit false

namespace Gen

variable {α : Type}

/-- How a strict and a collecting run from one workspace end. An internal error of the collecting
run leaves the strict one open. -/
inductive Agree (w : Workspace) : EStateM.Result GenerateError Workspace α →
    EStateM.Result GenerateError Workspace α → Prop where
  | quiet {a : α} {w' : Workspace} (h : w'.diagnostics = w.diagnostics) :
      Agree w (.ok a w') (.ok a w')
  | warned {first : Diagnostic} {rest : List Diagnostic} {a : α} {w' stopped : Workspace}
      (h : w'.diagnostics = w.diagnostics ++ first :: rest) :
      Agree w (.error (.ofDiagnostic first) stopped) (.ok a w')
  | internal {cause : StackError} {w' : Workspace}
      {strict : EStateM.Result GenerateError Workspace α} :
      Agree w strict (.error (.internal cause) w')

def Lockstep (strict collecting : Gen α) : Prop := ∀ w, Agree w (strict w) (collecting w)

theorem Plain.lockstep {x : Gen α} (h : Plain x) : Lockstep x x := by
  intro w
  have hw := h.ends w
  cases hx : x w with
  | ok a w' =>
    rw [hx] at hw
    exact .quiet hw.diagnostics_eq
  | error error w' =>
    rw [hx] at hw
    obtain ⟨⟨cause, rfl⟩, -⟩ := hw
    exact .internal

theorem lockstep_warnIf (condition : Bool) (at? : Option Region) (kind : DiagnosticKind)
    (region : Option Region) (value : String) :
    Lockstep (warnIf condition ⟨.strict, at?⟩ kind region value)
      (warnIf condition ⟨.collecting, at?⟩ kind region value) := by
  cases condition with
  | false => exact (blind_pure _).plain.lockstep
  | true => exact fun w => .warned rfl

theorem Lockstep.bind {β : Type} {x y : Gen α} {f g : α → Gen β} (h : Lockstep x y)
    (hfg : ∀ a, Lockstep (f a) (g a)) : Lockstep (x >>= f) (y >>= g) := by
  intro w
  have hw := h w
  change Agree w (EStateM.bind x f w) (EStateM.bind y g w)
  unfold EStateM.bind
  generalize x w = strict at hw
  generalize y w = collecting at hw
  cases hw with
  | internal => exact .internal
  | @quiet a w' hd =>
    have hnext := hfg a w'
    change Agree w (f a w') (g a w')
    generalize f a w' = strict at hnext
    generalize g a w' = collecting at hnext
    cases hnext with
    | internal => exact .internal
    | quiet hd' => exact .quiet (hd'.trans hd)
    | warned hd' => exact .warned (hd ▸ hd')
  | @warned first rest a w' stopped hd =>
    have hnext := hfg a w'
    change Agree w (.error (.ofDiagnostic first) stopped) (g a w')
    generalize f a w' = strict at hnext
    generalize g a w' = collecting at hnext
    cases hnext with
    | internal => exact .internal
    | quiet hd' => exact .warned (hd'.trans hd)
    | warned hd' =>
      apply Agree.warned
      rw [hd', hd, List.append_assoc, List.cons_append]

theorem respects_lockstep (region : Option Region) :
    Respects (fun _ => Lockstep) ⟨.strict, region⟩ ⟨.collecting, region⟩ where
  plain h := h.lockstep
  warnIf condition := lockstep_warnIf condition region
  bind hx hf := hx.bind hf

end Gen

namespace Session

variable {β : Type}

/-- How strict and collecting compilation in one session end. -/
inductive Agree (session : Session) :
    Except GenerateError β × Session → Except GenerateError β × Session → Prop where
  | quiet {b : β} {after : Session} (h : after.diagnostics = session.diagnostics) :
      Agree session (.ok b, after) (.ok b, after)
  | warned {first : Diagnostic} {rest : List Diagnostic} {b : β} {after stopped : Session}
      (h : after.diagnostics = session.diagnostics ++ first :: rest) :
      Agree session (.error (.ofDiagnostic first), stopped) (.ok b, after)

theorem compileRule_agree (session : Session) (rule : Rule) :
    session.Agree (session.compileRule .strict rule) (session.compileRule .collecting rule) := by
  have hstep : Gen.Lockstep (rule.generate .strict) (rule.generate .collecting) :=
    (Gen.respects_lockstep rule.region).generate_rule
  have hinternal : ∀ cause w', rule.generate .collecting { toSession := session } ≠
      .error (.internal cause) w' :=
    (rule.ensures_generate .collecting ⟨rfl, rfl, rfl⟩).not_internal
  have h := hstep { toSession := session }
  unfold compileRule EStateM.run
  generalize rule.generate .strict { toSession := session } = strict at h
  generalize rule.generate .collecting { toSession := session } = collecting at h hinternal
  cases h with
  | quiet h => exact .quiet h
  | warned h => exact .warned h
  | internal => exact absurd rfl (hinternal _ _)

theorem compileRules_agree (session : Session) (rules : List Rule) :
    session.Agree (session.compileRules .strict rules) (session.compileRules .collecting rules) := by
  induction rules generalizing session with
  | nil => exact .quiet rfl
  | cons rule rest ih =>
    have hrule := session.compileRule_agree rule
    generalize hstrict : session.compileRule .strict rule = strict at hrule
    generalize hcollecting : session.compileRule .collecting rule = collecting at hrule
    cases hrule with
    | @quiet function after hd =>
      rw [compileRules_cons_ok hstrict, compileRules_cons_ok hcollecting]
      have hrest := ih after
      generalize after.compileRules .strict rest = strict at hrest
      generalize after.compileRules .collecting rest = collecting at hrest
      cases hrest with
      | quiet hd' => exact .quiet (hd'.trans hd)
      | warned hd' => exact .warned (hd ▸ hd')
    | @warned first more function after stopped hd =>
      rw [compileRules_cons_error hstrict, compileRules_cons_ok hcollecting]
      have hrest := ih after
      generalize after.compileRules .strict rest = strict at hrest
      generalize after.compileRules .collecting rest = collecting at hrest
      cases hrest with
      | quiet hd' => exact .warned (hd'.trans hd)
      | warned hd' =>
        apply Agree.warned
        rw [hd', hd, List.append_assoc, List.cons_append]

theorem diagnostics_ofInitializers (initializers : List UserCode) :
    (ofInitializers initializers).diagnostics = [] := by
  have h : ∀ session : Session, (initializers.foldl
      (fun session code => session.addInitializer code.space code.body) session).diagnostics =
        session.diagnostics := by
    induction initializers with
    | nil => exact fun _ => rfl
    | cons first rest ih => exact fun session => ih _
  exact h {}

end Session

/-- Collecting always ends with an output. The strict run has the same output exactly when there
is no warning, and is otherwise stopped by the first one. -/
theorem strict_stops_at_first_warning (config : Config) (grammar : Grammar) :
    ∃ output diagnostics, grammar.generate config .collecting = (.ok output, diagnostics) ∧
      (∀ strict, (grammar.generate config .strict).1 = .ok strict ↔
        diagnostics = [] ∧ strict = output) ∧
      ∀ first rest, diagnostics = first :: rest →
        (grammar.generate config .strict).1 =
          .error (.rejected first.message (Json.quote first.value)) := by
  have h := (Session.ofInitializers grammar.initializers).compileRules_agree grammar.rules
  unfold Grammar.generate Grammar.compile
  generalize (Session.ofInitializers grammar.initializers).compileRules .strict grammar.rules =
    strict at h
  generalize (Session.ofInitializers grammar.initializers).compileRules .collecting
    grammar.rules = collecting at h
  cases h with
  | quiet hd =>
    rw [Session.diagnostics_ofInitializers] at hd
    refine ⟨_, _, rfl, ?_, ?_⟩
    · intro output
      constructor
      · intro ho
        exact ⟨hd, (Except.ok.inj ho).symm⟩
      · rintro ⟨-, rfl⟩
        rfl
    · intro first rest hne
      rw [hd] at hne
      cases hne
  | warned hd =>
    rw [Session.diagnostics_ofInitializers, List.nil_append] at hd
    refine ⟨_, _, rfl, ?_, ?_⟩
    · intro output
      constructor
      · intro ho
        cases ho
      · rintro ⟨hnil, -⟩
        rw [hd] at hnil
        cases hnil
    · intro first' rest' he
      rw [hd] at he
      cases he
      rfl

end Backtrack
