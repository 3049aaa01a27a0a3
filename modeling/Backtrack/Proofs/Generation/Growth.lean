import Backtrack.Parser.Files
import Backtrack.Proofs.Generation.Steps

/-!
# Sessions grow step by step

Whether a rule is compiled or fails, its session comes from the one before by steps that add an
entry or a warning. What every step keeps is therefore kept by whole grammars.
-/

namespace Backtrack

set_option autoImplicit false

namespace Session

inductive Step (session : Session) : Session → Prop where
  | adds {after : Session} (h : session.Adds after) : Step session after
  | warns (diagnostic : Diagnostic) :
      Step session { session with diagnostics := session.diagnostics ++ [diagnostic] }

abbrev Grows : Session → Session → Prop := Relation.ReflTransGen Step

theorem Grows.invariant {P : Session → Prop} (hstep : ∀ a b, Step a b → P a → P b) {a b : Session}
    (h : a.Grows b) (ha : P a) : P b := by
  induction h with
  | refl => exact ha
  | tail _ hs ih => exact hstep _ _ hs ih

end Session

namespace Gen

variable {α : Type}

def Growing (x : Gen α) : Prop :=
  ∀ w, match x w with
    | .ok _ w' => w.toSession.Grows w'.toSession
    | .error _ w' => w.toSession.Grows w'.toSession

theorem Plain.growing {x : Gen α} (h : Plain x) : Growing x := by
  intro w
  have hw := h.ends w
  cases hx : x w with
  | ok a w' =>
    rw [hx] at hw
    exact .single (.adds hw)
  | error error w' =>
    rw [hx] at hw
    change w.toSession.Grows w'.toSession
    rw [hw.2]

theorem growing_warnIf (condition : Bool) (cx : Context) (kind : DiagnosticKind)
    (region : Option Region) (value : String) : Growing (warnIf condition cx kind region value) := by
  cases condition with
  | false => exact (blind_pure _).plain.growing
  | true =>
    have hwarn : warnIf true cx kind region value = warn cx kind region value := if_pos rfl
    rw [hwarn]
    unfold warn
    cases cx.policy with
    | strict => exact fun _ => .refl
    | collecting => exact fun _ => .single (.warns _)

theorem Growing.bind {β : Type} {x : Gen α} {f : α → Gen β} (hx : Growing x)
    (hf : ∀ a, Growing (f a)) : Growing (x >>= f) := by
  intro w
  have hw := hx w
  change match EStateM.bind x f w with
    | .ok _ w' => w.toSession.Grows w'.toSession
    | .error _ w' => w.toSession.Grows w'.toSession
  unfold EStateM.bind
  cases hrun : x w with
  | error error w' =>
    rw [hrun] at hw
    exact hw
  | ok a w' =>
    rw [hrun] at hw
    have hw' := hf a w'
    change match f a w' with
      | .ok _ w' => w.toSession.Grows w'.toSession
      | .error _ w' => w.toSession.Grows w'.toSession
    cases hnext : f a w' with
    | ok b w'' =>
      rw [hnext] at hw'
      exact Relation.ReflTransGen.trans hw hw'
    | error error w'' =>
      rw [hnext] at hw'
      exact Relation.ReflTransGen.trans hw hw'

theorem respects_growing (cx : Context) : Respects (fun _ x _ => Growing x) cx cx where
  plain h := h.growing
  warnIf condition := growing_warnIf condition cx
  bind hx hf := hx.bind hf

end Gen

namespace Session

theorem compileRule_grows (policy : Policy) (session : Session) (rule : Rule) :
    session.Grows (session.compileRule policy rule).2 := by
  have h : Gen.Growing (rule.generate policy) :=
    (Gen.respects_growing ⟨policy, rule.region⟩).generate_rule
  have hw := h { toSession := session }
  unfold compileRule EStateM.run
  cases hrun : rule.generate policy { toSession := session } with
  | ok function w =>
    rw [hrun] at hw
    exact hw
  | error error w =>
    rw [hrun] at hw
    exact hw

theorem compileRules_cons_error {policy : Policy} {session after : Session} {rule : Rule}
    {error : GenerateError} (h : session.compileRule policy rule = (.error error, after))
    (rest : List Rule) : session.compileRules policy (rule :: rest) = (.error error, after) := by
  rw [compileRules, h]

theorem compileRules_cons_ok {policy : Policy} {session after : Session} {rule : Rule}
    {function : RuleFunction} (h : session.compileRule policy rule = (.ok function, after))
    (rest : List Rule) :
    session.compileRules policy (rule :: rest) =
      ((after.compileRules policy rest).1.map (function :: ·),
        (after.compileRules policy rest).2) := by
  rw [compileRules, h]
  rcases hrest : after.compileRules policy rest with ⟨_ | functions, final⟩
  · simp only [hrest, Except.map]
  · simp only [hrest, Except.map]

theorem compileRules_grows (policy : Policy) (session : Session) (rules : List Rule) :
    session.Grows (session.compileRules policy rules).2 := by
  induction rules generalizing session with
  | nil => exact .refl
  | cons rule rest ih =>
    have hfirst := session.compileRule_grows policy rule
    rcases hrule : session.compileRule policy rule with ⟨error | function, after⟩
    · rw [hrule] at hfirst
      rw [compileRules_cons_error hrule]
      exact hfirst
    · rw [hrule] at hfirst
      rw [compileRules_cons_ok hrule]
      exact Relation.ReflTransGen.trans hfirst (ih after)

theorem Adds.continues {a b : Session} (h : a.Adds b) : a.Continues b := by
  have hself : a.Continues a := .refl a
  have hspaces : ∀ space, a.user.spaces.keys <+: (a.user.touch space).spaces.keys := by
    intro space
    change _ <+: (a.user.spaces.insertIfNew space none).keys
    rw [OrderedMap.keys_insertIfNew, ← OrderedMap.keys_insert _ _ none]
    exact a.user.spaces.keys_isPrefix_insert space none
  cases h with
  | nothing => exact hself
  | literal bytes => exact { hself with literals := Interner.toList_isPrefix_add _ _ }
  | charClass singles ranges => exact { hself with classes := Interner.toList_isPrefix_add _ _ }
  | expected kind description =>
    exact { hself with descriptions := Interner.toList_isPrefix_add _ _ }
  | predicate code params =>
    exact { hself with
      predicates := Interner.toList_isPrefix_add _ _
      spaces := hspaces code.space }
  | action code params =>
    exact { hself with
      actions := Interner.toList_isPrefix_add _ _
      spaces := hspaces code.space }

theorem Adds.diagnostics_eq {a b : Session} (h : a.Adds b) : b.diagnostics = a.diagnostics := by
  cases h <;> rfl

theorem Step.continues {a b : Session} (h : a.Step b) : a.Continues b := by
  cases h with
  | adds h => exact h.continues
  | warns diagnostic => exact { Continues.refl a with }

theorem Grows.continues {a b : Session} (h : a.Grows b) : a.Continues b := by
  induction h with
  | refl => exact .refl a
  | tail _ hs ih => exact ih.trans hs.continues

theorem Grows.extends {a b : Session} (h : a.Grows b) : a.Extends b := h.continues.toExtends

/-- The tables have the names and the types they began with. -/
structure Headed (session : Session) : Prop where
  literals : session.constants.literals =
    { ({} : ConstantPool).literals with values := session.constants.literals.values }
  classes : session.constants.classes =
    { ({} : ConstantPool).classes with values := session.constants.classes.values }
  expected : session.constants.expected =
    { ({} : ConstantPool).expected with values := session.constants.expected.values }
  predicates : session.user.predicates =
    { FunctionTable.predicates with functions := session.user.predicates.functions }
  actions : session.user.actions =
    { FunctionTable.actions with functions := session.user.actions.functions }

theorem Step.headed {a b : Session} (h : a.Step b) (ha : a.Headed) : b.Headed := by
  obtain ⟨hl, hc, he, hp, hf⟩ := ha
  cases h with
  | warns diagnostic => exact ⟨hl, hc, he, hp, hf⟩
  | adds h =>
    cases h with
    | nothing => exact ⟨hl, hc, he, hp, hf⟩
    | literal bytes =>
      refine ⟨?_, hc, he, hp, hf⟩
      simp only [ConstantPool.addLiteral, ConstantTable.add]
      rw [hl]
    | charClass singles ranges =>
      refine ⟨hl, ?_, he, hp, hf⟩
      simp only [ConstantPool.addClass, ConstantTable.add]
      rw [hc]
    | expected kind description =>
      refine ⟨hl, hc, ?_, hp, hf⟩
      simp only [ConstantPool.addExpected, ConstantTable.add]
      rw [he]
    | predicate code params =>
      refine ⟨hl, hc, he, ?_, hf⟩
      simp only [UserTables.addPredicate, FunctionTable.add]
      rw [hp]
    | action code params =>
      refine ⟨hl, hc, he, hp, ?_⟩
      simp only [UserTables.addAction, FunctionTable.add]
      rw [hf]

theorem headed_ofInitializers (initializers : List UserCode) :
    (ofInitializers initializers).Headed := by
  have h : ∀ session : Session, session.Headed →
      (initializers.foldl (fun session code => session.addInitializer code.space code.body)
        session).Headed := by
    induction initializers with
    | nil => exact fun _ h => h
    | cons first rest ih =>
      intro session h
      exact ih _ ⟨h.literals, h.classes, h.expected, h.predicates, h.actions⟩
  exact h {} ⟨rfl, rfl, rfl, rfl, rfl⟩

end Session

namespace Grammar

/-- What a compiled grammar is made of. -/
theorem compile_ok {policy : Policy} {grammar : Grammar} {compiled : Compiled}
    {diagnostics : List Diagnostic} (h : grammar.compile policy = (.ok compiled, diagnostics)) :
    ∃ functions session,
      (Session.ofInitializers grammar.initializers).compileRules policy grammar.rules =
        (.ok functions, session) ∧
      compiled = ⟨grammar.rules.map Rule.name, functions, session.constants, session.user⟩ := by
  unfold compile at h
  rcases hrules : (Session.ofInitializers grammar.initializers).compileRules policy grammar.rules
    with ⟨error | functions, session⟩
  · rw [hrules] at h
    cases h
  · rw [hrules] at h
    cases h
    exact ⟨functions, session, rfl, rfl⟩

theorem generate_ok {config : Config} {policy : Policy} {grammar : Grammar} {output : Output}
    {diagnostics : List Diagnostic}
    (h : grammar.generate config policy = (.ok output, diagnostics)) :
    ∃ compiled, grammar.compile policy = (.ok compiled, diagnostics) ∧
      output = compiled.output config := by
  unfold generate at h
  rcases hcompile : grammar.compile policy with ⟨error | compiled, raised⟩
  · rw [hcompile] at h
    cases h
  · rw [hcompile] at h
    cases h
    exact ⟨compiled, rfl, rfl⟩

theorem generate_of_compile {policy : Policy} {grammar : Grammar} {compiled : Compiled}
    {diagnostics : List Diagnostic} (h : grammar.compile policy = (.ok compiled, diagnostics))
    (config : Config) :
    grammar.generate config policy = (.ok (compiled.output config), diagnostics) := by
  unfold generate
  rw [h]
  rfl

end Grammar

end Backtrack
