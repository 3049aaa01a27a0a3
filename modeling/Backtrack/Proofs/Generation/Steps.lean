import Mathlib.Logic.Relation
import Backtrack.Generate.Rule
import Backtrack.Proofs.Generation.Lowering

/-!
# The steps that generation is put together from

A plain step adds at most one entry to one table and fails only when a slot stack is misused. All
else is a warning, or is put together from steps. So a relation between two ways to generate need
only be looked at there: it then holds for every expression and every rule.
-/

namespace Backtrack

set_option autoImplicit false

/-- At most one entry of one table is new. -/
inductive Session.Adds (session : Session) : Session → Prop where
  | nothing : Adds session session
  | literal (bytes : Bytes) :
      Adds session { session with constants := (session.constants.addLiteral bytes).2 }
  | charClass (singles : Bytes) (ranges : List (UInt8 × UInt8)) :
      Adds session { session with constants := (session.constants.addClass singles ranges).2 }
  | expected (kind : ExpectedKind) (description : String) :
      Adds session { session with constants := (session.constants.addExpected kind description).2 }
  | predicate (code : UserCode) (params : List String) :
      Adds session { session with user := (session.user.addPredicate code params).2 }
  | action (code : UserCode) (params : List String) :
      Adds session { session with user := (session.user.addAction code params).2 }

namespace Gen

variable {α β : Type}

/-- The session that a run ends with. -/
def endSession : EStateM.Result GenerateError Workspace α → Session
  | .ok _ w | .error _ w => w.toSession

/-- A run that ends the same way, but with the given session. -/
def withSession (session : Session) : EStateM.Result GenerateError Workspace α →
    EStateM.Result GenerateError Workspace α
  | .ok a w => .ok a { w with toSession := session }
  | .error error w => .error error { w with toSession := session }

structure Plain (x : Gen α) : Prop where
  ends : ∀ w, match x w with
    | .ok _ w' => w.toSession.Adds w'.toSession
    | .error error w' => (∃ cause, error = .internal cause) ∧ w'.toSession = w.toSession
  /-- Where its entry is already there, the step does the same and adds nothing. -/
  again : ∀ w later, (endSession (x w)).Continues later →
    x { w with toSession := later } = withSession later (x w)

structure Blind (x : Gen α) : Prop where
  same : ∀ w session, x { w with toSession := session } = withSession session (x w)
  internal : ∀ w error w', x w = .error error w' → ∃ cause, error = .internal cause

theorem Blind.plain {x : Gen α} (h : Blind x) : Plain x where
  ends w := by
    have hw := h.same w w.toSession
    cases hx : x w with
    | ok a w' =>
      rw [hx] at hw
      obtain ⟨-, hsame⟩ := EStateM.Result.ok.inj hw
      change w.toSession.Adds w'.toSession
      rw [hsame]
      exact .nothing
    | error error w' =>
      rw [hx] at hw
      obtain ⟨-, hsame⟩ := EStateM.Result.error.inj hw
      refine ⟨h.internal w error w' hx, ?_⟩
      rw [hsame]
  again w later _ := h.same w later

theorem blind_pure (a : α) : Blind (pure a) := ⟨fun _ _ => rfl, nofun⟩

theorem blind_throw (cause : StackError) : Blind (throw (.internal cause) : Gen α) := by
  refine ⟨fun _ _ => rfl, ?_⟩
  intro w error w' h
  cases h
  exact ⟨cause, rfl⟩

theorem blind_ofExcept (result : Except StackError α) : Blind (ofExcept result) := by
  cases result with
  | ok a => exact blind_pure a
  | error cause => exact blind_throw cause

theorem blind_modifyGet {f : Workspace → α × Workspace}
    (h : ∀ w session, f { w with toSession := session } =
      ((f w).1, { (f w).2 with toSession := session })) : Blind (modifyGet f) := by
  refine ⟨?_, nofun⟩
  intro w session
  change EStateM.Result.ok (f { w with toSession := session }).1 _ = _
  rw [h w session]
  rfl

theorem Blind.bind {x : Gen α} {f : α → Gen β} (hx : Blind x) (hf : ∀ a, Blind (f a)) :
    Blind (x >>= f) := by
  constructor
  · intro w session
    change EStateM.bind x f _ = withSession session (EStateM.bind x f w)
    unfold EStateM.bind
    rw [hx.same w session]
    cases x w with
    | ok a w' => exact (hf a).same w' session
    | error error w' => rfl
  · intro w error w' h
    change EStateM.bind x f w = _ at h
    unfold EStateM.bind at h
    cases hrun : x w with
    | ok a w'' =>
      rw [hrun] at h
      exact (hf a).internal w'' error w' h
    | error error' w'' =>
      rw [hrun] at h
      cases h
      exact hx.internal w error w' hrun

/-- Reading the workspace does not look at the session where what comes of it does not. -/
theorem blind_get {f : Workspace → Gen β}
    (h : ∀ w session, f { w with toSession := session } = f w) (hf : ∀ w, Blind (f w)) :
    Blind (get >>= f) := by
  constructor
  · intro w session
    change f { w with toSession := session } { w with toSession := session } = _
    rw [h w session]
    exact (hf w).same w session
  · intro w error w' hrun
    exact (hf w).internal w error w' hrun

theorem blind_newResult : Blind newResult := blind_modifyGet fun _ _ => rfl

theorem blind_newPosition : Blind newPosition := blind_modifyGet fun _ _ => rfl

theorem blind_topResult : Blind topResult :=
  blind_get (fun _ _ => rfl) fun _ => blind_ofExcept _

theorem blind_resultsFrom (slot : Nat) : Blind (resultsFrom slot) :=
  blind_get (fun _ _ => rfl) fun _ => blind_ofExcept _

theorem blind_popResult : Blind popResult := by
  apply blind_get (fun _ _ => rfl)
  intro w
  apply (blind_ofExcept _).bind
  intro popped
  exact (blind_modifyGet fun _ _ => rfl).bind fun _ => blind_pure popped.1

theorem blind_popResults (n : Nat) : Blind (popResults n) := by
  apply blind_get (fun _ _ => rfl)
  intro w
  apply (blind_ofExcept _).bind
  intro popped
  exact (blind_modifyGet fun _ _ => rfl).bind fun _ => blind_pure popped.1

theorem blind_replaceResult : Blind replaceResult := by
  apply blind_get (fun _ _ => rfl)
  intro w
  apply (blind_ofExcept _).bind
  intro replaced
  exact (blind_modifyGet fun _ _ => rfl).bind fun _ => blind_pure replaced.1

theorem blind_assertLive {stack : Workspace → SlotStack}
    (h : ∀ w session, stack { w with toSession := session } = stack w) (expected : Nat) :
    Blind (assertLive stack expected) := by
  apply blind_get
  · intro w session
    simp only [h]
  · intro w
    split
    · exact blind_throw _
    · exact blind_pure _

theorem blind_releasePosition (saved : Nat) : Blind (releasePosition saved) := by
  apply blind_get (fun _ _ => rfl)
  intro w
  apply (blind_ofExcept _).bind
  intro popped
  apply (blind_modifyGet fun _ _ => rfl).bind
  intro _
  exact blind_assertLive (fun _ _ => rfl) saved

theorem plain_modifyGet {f : Workspace → α × Workspace}
    (h : ∀ w : Workspace, w.toSession.Adds (f w).2.toSession)
    (hagain : ∀ w later, (f w).2.toSession.Continues later →
      f { w with toSession := later } = ((f w).1, { (f w).2 with toSession := later })) :
    Plain (modifyGet f) where
  ends := h
  again w later hlater := by
    change EStateM.Result.ok (f { w with toSession := later }).1 _ = _
    rw [hagain w later hlater]
    rfl

theorem plain_literal (bytes : Bytes) : Plain (Gen.literal bytes) := by
  apply plain_modifyGet
  · exact fun _ => .literal bytes
  · intro w later h
    have hadd := Interner.intern_of_isPrefix w.constants.literals.values
      (Constants.literal bytes) h.literals
    simp only [ConstantPool.addLiteral, ConstantTable.add, hadd]

theorem plain_charClass (singles : Bytes) (ranges : List (UInt8 × UInt8)) :
    Plain (Gen.charClass singles ranges) := by
  apply plain_modifyGet
  · exact fun _ => .charClass singles ranges
  · intro w later h
    have hadd := Interner.intern_of_isPrefix w.constants.classes.values
      (Constants.charClass singles ranges) h.classes
    simp only [ConstantPool.addClass, ConstantTable.add, hadd]

theorem plain_expected (kind : ExpectedKind) (description : String) :
    Plain (Gen.expected kind description) := by
  apply plain_modifyGet
  · exact fun _ => .expected kind description
  · intro w later h
    have hadd := Interner.intern_of_isPrefix w.constants.expected.values
      (Constants.expected kind (Bytes.ofString description)) h.descriptions
    simp only [ConstantPool.addExpected, ConstantTable.add, hadd]

/-- A namespace that is known stays where it is. -/
theorem touch_of_continues {user : UserTables} {space : String} {later : UserTables}
    (h : (user.touch space).spaces.keys <+: later.spaces.keys) : later.touch space = later := by
  have hmem : space ∈ later.spaces.keys := by
    apply h.subset
    exact OrderedMap.mem_keys_insertIfNew.mpr (Or.inr rfl)
  unfold UserTables.touch OrderedMap.insertIfNew
  rw [if_pos hmem]

theorem plain_predicate (code : UserCode) (env : Env) : Plain (Gen.predicate code env) := by
  apply plain_modifyGet
  · exact fun _ => .predicate code env.keys
  · intro w later h
    have htouch : later.user.touch code.space = later.user := touch_of_continues h.spaces
    have hadd := Interner.intern_of_isPrefix w.user.predicates.functions
      ⟨code.space, env.keys, code.body⟩ h.predicates
    simp only [UserTables.addPredicate, FunctionTable.add, htouch, hadd]

theorem plain_action (code : UserCode) (env : Env) : Plain (Gen.action code env) := by
  apply plain_modifyGet
  · exact fun _ => .action code env.keys
  · intro w later h
    have htouch : later.user.touch code.space = later.user := touch_of_continues h.spaces
    have hadd := Interner.intern_of_isPrefix w.user.actions.functions
      ⟨code.space, env.keys, code.body⟩ h.actions
    simp only [UserTables.addAction, FunctionTable.add, htouch, hadd]

/-- A relation between two ways to generate, under two contexts. It holds between a plain step and
itself and between the two ways to warn, and goes over to what is put together. -/
structure Respects (R : (α : Type) → Gen α → Gen α → Prop) (cx cx' : Context) : Prop where
  plain {α : Type} {x : Gen α} (h : Plain x) : R α x x
  warnIf (condition : Bool) (kind : DiagnosticKind) (region : Option Region) (value : String) :
    R PUnit (warnIf condition cx kind region value) (warnIf condition cx' kind region value)
  bind {α β : Type} {x x' : Gen α} {f f' : α → Gen β} (h : R α x x')
    (hf : ∀ a, R β (f a) (f' a)) : R β (x >>= f) (x' >>= f')

namespace Respects

variable {R : (α : Type) → Gen α → Gen α → Prop} {cx cx' : Context} (h : Respects R cx cx')
include h

theorem pure (a : α) : R α (Pure.pure a) (Pure.pure a) := h.plain (blind_pure a).plain

theorem map {β : Type} {x x' : Gen α} (f : α → β) (hx : R α x x') :
    R β (f <$> x) (f <$> x') := by
  rw [map_eq_pure_bind, map_eq_pure_bind]
  exact h.bind hx fun a => h.pure (f a)

theorem assertLive {stack : Workspace → SlotStack}
    (hs : ∀ w session, stack { w with toSession := session } = stack w) (expected : Nat) :
    R PUnit (assertLive stack expected) (assertLive stack expected) :=
  h.plain (blind_assertLive hs expected).plain

theorem newResult : R Nat newResult newResult := h.plain blind_newResult.plain

theorem newPosition : R Nat newPosition newPosition := h.plain blind_newPosition.plain

theorem topResult : R Nat topResult topResult := h.plain blind_topResult.plain

theorem resultsFrom (slot : Nat) : R (List Nat) (resultsFrom slot) (resultsFrom slot) :=
  h.plain (blind_resultsFrom slot).plain

theorem popResult : R Nat popResult popResult := h.plain blind_popResult.plain

theorem popResults (n : Nat) : R (List Nat) (popResults n) (popResults n) :=
  h.plain (blind_popResults n).plain

theorem replaceResult : R Nat replaceResult replaceResult := h.plain blind_replaceResult.plain

theorem releasePosition (saved : Nat) :
    R PUnit (releasePosition saved) (releasePosition saved) :=
  h.plain (blind_releasePosition saved).plain

theorem inStep (scope : Scope) {x x' : Gen α} (hx : R α x x') :
    R α (inStep scope x) (inStep scope x') := by
  refine h.bind (h.assertLive (fun _ _ => rfl) _) fun _ => h.bind hx fun out => ?_
  exact h.bind (h.assertLive (fun _ _ => rfl) _) fun _ => h.pure out

theorem literal (bytes : Bytes) : R Nat (Gen.literal bytes) (Gen.literal bytes) :=
  h.plain (plain_literal bytes)

theorem charClass (singles : Bytes) (ranges : List (UInt8 × UInt8)) :
    R Nat (Gen.charClass singles ranges) (Gen.charClass singles ranges) :=
  h.plain (plain_charClass singles ranges)

theorem expected (kind : ExpectedKind) (description : String) :
    R Nat (Gen.expected kind description) (Gen.expected kind description) :=
  h.plain (plain_expected kind description)

theorem predicate (code : UserCode) (env : Env) :
    R Call (Gen.predicate code env) (Gen.predicate code env) :=
  h.plain (plain_predicate code env)

theorem action (code : UserCode) (env : Env) :
    R Call (Gen.action code env) (Gen.action code env) :=
  h.plain (plain_action code env)

end Respects

end Gen

namespace Gen.Respects

variable {R : (α : Type) → Gen α → Gen α → Prop} {cx cx' : Context} (h : Respects R cx cx')
include h

theorem generate_literal (region : Option Region) (value : String) (ignoreCase : Bool) :
    R Code (Generate.literal cx region value ignoreCase)
      (Generate.literal cx' region value ignoreCase) := by
  refine h.bind (h.warnIf ..) fun _ => h.bind (h.warnIf ..) fun _ => ?_
  refine h.bind (h.literal _) fun constant => h.bind (h.expected ..) fun expected => ?_
  exact h.bind h.newResult fun slot => h.pure _

theorem generate_charClass (region : Option Region) (cls : CharClass) :
    R Code (Generate.charClass cx region cls) (Generate.charClass cx' region cls) := by
  refine h.bind (h.warnIf ..) fun _ => h.bind (h.warnIf ..) fun _ => ?_
  refine h.bind (h.charClass ..) fun constant => h.bind (h.expected ..) fun expected => ?_
  exact h.bind h.newResult fun slot => h.pure _

theorem generate_predicate (negated : Bool) (code : UserCode) (env : Env) :
    R Code (Generate.predicate negated code env) (Generate.predicate negated code env) := by
  refine h.bind (h.predicate code env) fun call => h.bind h.newResult fun slot => ?_
  exact h.bind h.replaceResult fun slot' => h.pure _

theorem generate_named (name : String) {x x' : Gen (Code × Env)} (hx : R (Code × Env) x x') :
    R (Code × Env) (Generate.named name x) (Generate.named name x') := by
  refine h.bind (h.expected ..) fun expected => h.bind hx ?_
  rintro ⟨code, env⟩
  exact h.bind h.topResult fun slot => h.bind h.replaceResult fun slot' => h.pure _

theorem generate_text {x x' : Gen Code} (hx : R Code x x') :
    R Code (Generate.text x) (Generate.text x') := by
  refine h.bind h.newPosition fun start => h.bind hx fun code => ?_
  refine h.bind (h.releasePosition start) fun _ => h.bind h.topResult fun slot => ?_
  exact h.bind h.replaceResult fun slot' => h.pure _

theorem generate_action (code : UserCode) {x x' : Gen (Code × Env)} (hx : R (Code × Env) x x') :
    R Code (Generate.action code x) (Generate.action code x') := by
  refine h.bind h.newPosition fun start => h.bind hx ?_
  rintro ⟨body, env⟩
  refine h.bind (h.action code env) fun call => h.bind h.topResult fun slot => ?_
  exact h.bind (h.releasePosition start) fun _ => h.pure _

theorem generate_optional {x x' : Gen Code} (hx : R Code x x') :
    R Code (Generate.optional x) (Generate.optional x') :=
  h.bind hx fun _ => h.bind h.topResult fun _ => h.bind h.replaceResult fun _ => h.pure _

theorem generate_lookahead (negated : Bool) {x x' : Gen Code} (hx : R Code x x') :
    R Code (Generate.lookahead negated x) (Generate.lookahead negated x') := by
  refine h.bind h.newPosition fun start => h.bind hx fun code => ?_
  refine h.bind (h.releasePosition start) fun _ => h.bind h.topResult fun slot => ?_
  refine h.bind h.replaceResult fun slot' => ?_
  cases negated with
  | false => exact h.pure _
  | true => exact h.bind h.replaceResult fun slot'' => h.pure _

theorem generate_enough (min : UInt32) (array start : Nat) :
    R Code (Generate.enough min array start) (Generate.enough min array start) :=
  h.bind (h.releasePosition start) fun _ => h.bind h.replaceResult fun _ => h.pure _

theorem generate_repeated (quantifier : Quantifier) {x x' : Gen Code} (hx : R Code x x') :
    R Code (Generate.repeated quantifier x) (Generate.repeated quantifier x') := by
  unfold Generate.repeated
  by_cases hq : 0 < quantifier.least
  · simp only [if_pos hq]
    refine h.bind (h.map some h.newPosition) fun start? => h.bind h.newResult fun slot => ?_
    refine h.bind h.topResult fun array => h.bind hx fun code => h.bind h.popResult fun item => ?_
    cases start? with
    | none => exact h.pure _
    | some start => exact h.bind (h.generate_enough _ array start) fun check => h.pure _
  · simp only [if_neg hq]
    refine h.bind (h.pure none) fun start? => h.bind h.newResult fun slot => ?_
    refine h.bind h.topResult fun array => h.bind hx fun code => h.bind h.popResult fun item => ?_
    cases start? with
    | none => exact h.pure _
    | some start => exact h.bind (h.generate_enough _ array start) fun check => h.pure _

theorem generate_element (number slot start : Nat) {x x' : Gen (Code × Env)}
    (hx : R (Code × Env) x x') :
    R (Code × Env) (Generate.element number slot start x)
      (Generate.element number slot start x') := by
  refine h.bind hx ?_
  rintro ⟨code, env⟩
  exact h.bind h.topResult fun failed => h.bind (h.resultsFrom slot) fun done => h.pure _

theorem generate_sequence (scope : Scope) (count : Nat) {x x' : Nat → Gen (Code × Env)}
    (hx : ∀ start, R (Code × Env) (x start) (x' start)) :
    R (Code × Env) (Generate.sequence scope count x) (Generate.sequence scope count x') := by
  refine h.bind h.newPosition fun start => h.bind (hx start) ?_
  rintro ⟨code, env⟩
  refine h.bind (h.popResults count) fun values => h.bind (h.releasePosition start) fun _ => ?_
  cases scope.action with
  | none => exact h.bind (h.pure _) fun call => h.bind h.newResult fun slot => h.pure _
  | some code =>
    exact h.bind (h.map _ (h.action code env)) fun call => h.bind h.newResult fun slot => h.pure _

theorem generate_alternative (number : Nat) {x x' : Gen Code} (hx : R Code x x') :
    R Code (Generate.alternative number x) (Generate.alternative number x') :=
  h.bind hx fun _ => h.bind h.popResult fun _ => h.pure _

theorem generate_elements {elements : List Expr}
    (he : ∀ e ∈ elements, ∀ scope, R (Code × Env) (e.generate cx scope) (e.generate cx' scope))
    (slot start done : Nat) (env : Env) :
    R (Code × Env) (Expr.generateElements cx slot start done env elements)
      (Expr.generateElements cx' slot start done env elements) := by
  induction elements generalizing done env with
  | nil => exact h.pure _
  | cons first rest ih =>
    obtain ⟨hfirst, hrest⟩ := List.forall_mem_cons.mp he
    refine h.bind (h.generate_element _ slot start (hfirst _)) ?_
    rintro ⟨code, env'⟩
    refine h.bind (ih hrest (done + 1) env') ?_
    rintro ⟨more, env''⟩
    exact h.pure _

theorem generate_alternatives {alternatives : List Expr}
    (he : ∀ e ∈ alternatives, ∀ scope, R (Code × Env) (e.generate cx scope) (e.generate cx' scope))
    (scope : Scope) (number : Nat) :
    R Code (Expr.generateAlternatives cx scope number alternatives)
      (Expr.generateAlternatives cx' scope number alternatives) := by
  induction alternatives generalizing number with
  | nil => exact h.pure _
  | cons first rest ih =>
    obtain ⟨hfirst, hrest⟩ := List.forall_mem_cons.mp he
    cases rest with
    | nil =>
      refine h.bind (hfirst _) ?_
      rintro ⟨code, env⟩
      exact h.pure _
    | cons second rest =>
      refine h.bind (h.generate_alternative number (h.map _ (hfirst _))) fun code => ?_
      exact h.bind (ih hrest (number + 1)) fun more => h.pure _

/-- The relation holds between the two ways to generate an expression. -/
theorem generate (e : Expr) (scope : Scope) :
    R (Code × Env) (e.generate cx scope) (e.generate cx' scope) := by
  induction e using Expr.induction generalizing scope with
  | named region name inner ih => exact h.inStep scope (h.generate_named name (ih scope))
  | choice region alternatives ih =>
    cases alternatives with
    | nil => exact h.inStep scope (h.bind h.newResult fun slot => h.pure _)
    | cons first rest =>
      exact h.inStep scope (h.bind (h.generate_alternatives ih scope 1) fun code => h.pure _)
  | sequence region elements ih =>
    exact h.inStep scope (h.generate_sequence scope _ fun start =>
      h.generate_elements ih scope.slot start 0 scope.env)
  | labeled region label inner ih =>
    refine h.inStep scope (h.bind (ih _) ?_)
    rintro ⟨code, env⟩
    exact h.pure _
  | text region inner ih =>
    exact h.inStep scope (h.bind (h.generate_text (h.map _ (ih _))) fun code => h.pure _)
  | optional region inner ih =>
    exact h.inStep scope (h.bind (h.generate_optional (h.map _ (ih _))) fun code => h.pure _)
  | repeated region quantifier inner ih =>
    exact h.inStep scope (h.bind (h.generate_repeated quantifier (h.map _ (ih _))) fun code =>
      h.pure _)
  | lookahead region negated inner ih =>
    exact h.inStep scope (h.bind (h.generate_lookahead negated (h.map _ (ih _))) fun code =>
      h.pure _)
  | predicate region negated code =>
    exact h.inStep scope (h.bind (h.generate_predicate negated code scope.env) fun out => h.pure _)
  | action region code inner ih =>
    apply h.inStep scope
    by_cases hseq : inner.isSequence = true
    · simp only [if_pos hseq]
      exact h.bind (h.map _ (ih _)) fun out => h.pure _
    · simp only [if_neg hseq]
      exact h.bind (h.generate_action code (ih _)) fun out => h.pure _
  | ruleRef region name => exact h.inStep scope (h.bind h.newResult fun slot => h.pure _)
  | literal region value ignoreCase =>
    exact h.inStep scope (h.bind (h.generate_literal region value ignoreCase) fun code => h.pure _)
  | charClass region cls =>
    exact h.inStep scope (h.bind (h.generate_charClass region cls) fun code => h.pure _)
  | any region => exact h.inStep scope (h.bind h.newResult fun slot => h.pure _)

end Gen.Respects

/-- The relation holds between the two ways to generate a rule. -/
theorem Gen.Respects.generate_rule {R : (α : Type) → Gen α → Gen α → Prop} {policy policy' : Policy}
    {rule : Rule} (h : Respects R ⟨policy, rule.region⟩ ⟨policy', rule.region⟩) :
    R RuleFunction (rule.generate policy) (rule.generate policy') := by
  refine h.bind (h.generate rule.expression Scope.root) ?_
  rintro ⟨body, env⟩
  refine h.bind h.popResult fun result => h.bind (h.assertLive (fun _ _ => rfl) 0) fun _ => ?_
  refine h.bind (h.assertLive (fun _ _ => rfl) 0) fun _ => h.plain (Blind.plain ?_)
  exact blind_get (fun _ _ => rfl) fun w => blind_pure _

end Backtrack
