import Backtrack.Proofs.Generation.Lowering
import Backtrack.Proofs.Relocation.Shift

/-!
# Generation moves with its slots

An expression is generated twice, the second time where more slots are live. Step by step the two
runs stay as far apart as they were: what the second one gives is what the first one gives, moved
up. One law for each operation on the workspace and for each way to put code around code, then the
induction over expressions.
-/

namespace Backtrack

set_option autoImplicit false

/-- Two workspaces with the same tables. So many results and positions are live in the first one; in
the second one, `d` results and `q` positions more. -/
structure Workspace.Apart (d q results positions : Nat) (w w' : Workspace) : Prop where
  session_eq : w'.toSession = w.toSession
  results_live : w.results.live = results
  positions_live : w.positions.live = positions
  results_above : w'.results.live = results + d
  positions_above : w'.positions.live = positions + q

namespace Workspace.Apart

variable {d q r p : Nat} {w w' : Workspace}

theorem results_succ (hw : w.Apart d q (r + 1) p w') : w'.results.live = r + d + 1 := by
  rw [hw.results_above]
  omega

theorem withSession (hw : w.Apart d q r p w') {session session' : Session}
    (h : session' = session) :
    Apart d q r p { w with toSession := session } { w' with toSession := session' } :=
  ⟨h, hw.results_live, hw.positions_live, hw.results_above, hw.positions_above⟩

end Workspace.Apart

namespace Gen

variable {α β : Type} {d q r p r' p' : Nat} {move : α → α}

/-- From workspaces that are apart, with `r` results and `p` positions live in the first one, the
two steps end alike. Either both give a value, the second one the moved value of the first, and the
workspaces are as far apart with `r'` and `p'` live, or both fail for the same reason with the same
tables. -/
structure Moves (d q r p r' p' : Nat) (move : α → α) (x x' : Gen α) : Prop where
  ends : ∀ w w', w.Apart d q r p w' →
    match x w, x' w' with
    | .ok a v, .ok a' v' => a' = move a ∧ v.Apart d q r' p' v'
    | .error error v, .error error' v' => error' = error ∧ v'.toSession = v.toSession
    | _, _ => False

theorem moves_of_ok {x x' : Gen α}
    (h : ∀ w w', w.Apart d q r p w' →
      ∃ a v v', x w = .ok a v ∧ x' w' = .ok (move a) v' ∧ v.Apart d q r' p' v') :
    Moves d q r p r' p' move x x' := by
  constructor
  intro w w' hw
  obtain ⟨a, v, v', hx, hx', hv⟩ := h w w' hw
  rw [hx, hx']
  exact ⟨rfl, hv⟩

theorem moves_pure {a a' : α} (h : a' = move a) : Moves d q r p r p move (pure a) (pure a') :=
  ⟨fun _ _ hw => ⟨h, hw⟩⟩

theorem Moves.bind {moveOut : β → β} {r'' p'' : Nat} {x x' : Gen α} {f f' : α → Gen β}
    (hx : Moves d q r p r' p' move x x')
    (hf : ∀ a, Moves d q r' p' r'' p'' moveOut (f a) (f' (move a))) :
    Moves d q r p r'' p'' moveOut (x >>= f) (x' >>= f') := by
  constructor
  intro w w' hw
  have hstep := hx.ends w w' hw
  change match EStateM.bind x f w, EStateM.bind x' f' w' with
    | .ok a v, .ok a' v' => a' = moveOut a ∧ v.Apart d q r'' p'' v'
    | .error error v, .error error' v' => error' = error ∧ v'.toSession = v.toSession
    | _, _ => False
  unfold EStateM.bind
  cases hrun : x w with
  | ok a v =>
    cases hrun' : x' w' with
    | ok a' v' =>
      rw [hrun, hrun'] at hstep
      obtain ⟨rfl, hv⟩ := hstep
      exact (hf a).ends v v' hv
    | error error' v' => simp only [hrun, hrun'] at hstep
  | error error v =>
    cases hrun' : x' w' with
    | ok a' v' => simp only [hrun, hrun'] at hstep
    | error error' v' =>
      rw [hrun, hrun'] at hstep
      exact hstep

theorem Moves.map {moveOut : β → β} {x x' : Gen α} {f : α → β}
    (hx : Moves d q r p r' p' move x x') (hf : ∀ a, f (move a) = moveOut (f a)) :
    Moves d q r p r' p' moveOut (f <$> x) (f <$> x') := by
  rw [map_eq_pure_bind, map_eq_pure_bind]
  exact hx.bind fun a => moves_pure (hf a)

theorem moves_modifyGet {f f' : Workspace → α × Workspace}
    (h : ∀ w w', w.Apart d q r p w' →
      (f' w').1 = move (f w).1 ∧ (f w).2.Apart d q r' p' (f' w').2) :
    Moves d q r p r' p' move (modifyGet f) (modifyGet f') := ⟨h⟩

theorem map_add_range' (d first count : Nat) :
    (List.range' first count).map (· + d) = List.range' (first + d) count := by
  simpa only [Nat.add_comm d] using List.map_add_range' (a := d) first count 1

theorem moves_newResult : Moves d q r p (r + 1) p (· + d) newResult newResult := by
  apply moves_modifyGet
  intro w w' hw
  have hslot : w'.results.live = w.results.live + d := by
    rw [hw.results_live, hw.results_above]
  have hlive : w'.results.live + 1 = r + 1 + d := by
    rw [hw.results_above]
    omega
  exact ⟨hslot, hw.session_eq, congrArg (· + 1) hw.results_live, hw.positions_live, hlive,
    hw.positions_above⟩

/-- A new position is the next one in either workspace. What comes after gets its number, not only
that the two are apart: the position is released under it. -/
theorem moves_newPosition {move : β → β} {f f' : Nat → Gen β}
    (hf : Moves d q r (p + 1) r' p' move (f p) (f' (p + q))) :
    Moves d q r p r' p' move (newPosition >>= f) (newPosition >>= f') := by
  constructor
  intro w w' hw
  obtain ⟨hsession, hresults, rfl, hresults', hpositions'⟩ := hw
  have hlive : w'.positions.live + 1 = w.positions.live + 1 + q := by
    rw [hpositions']
    omega
  rw [← hpositions'] at hf
  exact hf.ends _ _ ⟨hsession, hresults, rfl, hresults', hlive⟩

theorem moves_popResult : Moves d q (r + 1) p r p (· + d) popResult popResult := by
  apply moves_of_ok
  intro w w' hw
  exact ⟨r, _, _, popResult_eq hw.results_live, popResult_eq hw.results_succ, hw.session_eq, rfl,
    hw.positions_live, rfl, hw.positions_above⟩

theorem moves_popResults (n : Nat) :
    Moves d q (r + n) p r p (List.map (· + d)) (popResults n) (popResults n) := by
  apply moves_of_ok
  intro w w' hw
  have hlive : w'.results.live = r + d + n := by
    rw [hw.results_above]
    omega
  have hpopped := popResults_eq hlive
  rw [← map_add_range'] at hpopped
  exact ⟨_, _, _, popResults_eq hw.results_live, hpopped, hw.session_eq, rfl, hw.positions_live,
    rfl, hw.positions_above⟩

theorem moves_replaceResult :
    Moves d q (r + 1) p (r + 1) p (· + d) replaceResult replaceResult := by
  apply moves_of_ok
  intro w w' hw
  exact ⟨r, _, _, replaceResult_eq hw.results_live, replaceResult_eq hw.results_succ,
    hw.session_eq, rfl, hw.positions_live, Nat.add_right_comm r d 1, hw.positions_above⟩

theorem moves_topResult : Moves d q (r + 1) p (r + 1) p (· + d) topResult topResult := by
  apply moves_of_ok
  intro w w' hw
  exact ⟨r, w, w', topResult_eq hw.results_live, topResult_eq hw.results_succ, hw⟩

theorem moves_resultsFrom (slot : Nat) :
    Moves d q r p r p (List.map (· + d)) (resultsFrom slot) (resultsFrom (slot + d)) := by
  apply moves_of_ok
  intro w w' hw
  have hcount : w'.results.live - (slot + d) = w.results.live - slot := by
    rw [hw.results_live, hw.results_above, Nat.add_sub_add_right]
  refine ⟨List.range' slot (w.results.live - slot), w, w', rfl, ?_, hw⟩
  rw [map_add_range', ← hcount]
  rfl

theorem moves_releasePosition :
    Moves d q r (p + 1) r p id (releasePosition p) (releasePosition (p + q)) := by
  apply moves_of_ok
  intro w w' hw
  have hlive : w'.positions.live = p + q + 1 := by
    rw [hw.positions_above]
    omega
  exact ⟨(), _, _, releasePosition_eq hw.positions_live, releasePosition_eq hlive, hw.session_eq,
    hw.results_live, rfl, hw.results_above, rfl⟩

theorem moves_assertLive :
    Moves d q r p r p id (assertLive Workspace.results r)
      (assertLive Workspace.results (r + d)) := by
  apply moves_of_ok
  intro w w' hw
  exact ⟨(), w, w', assertLive_eq hw.results_live, assertLive_eq hw.results_above, hw⟩

/-- Where the scope is in step with the results, so is the moved scope with those above. -/
theorem Moves.inStep {scope : Scope} {x x' : Gen α}
    (hx : Moves d q scope.slot p (scope.slot + 1) p move x x') :
    Moves d q scope.slot p (scope.slot + 1) p move (inStep scope x)
      (inStep (scope.shift d) x') := by
  have hafter : (scope.shift d).slot + 1 = scope.slot + 1 + d := Nat.add_right_comm scope.slot d 1
  refine moves_assertLive.bind fun _ => hx.bind fun a => ?_
  rw [hafter]
  exact moves_assertLive.bind fun _ => moves_pure rfl

/-- An entry of the same tables has the same number. -/
theorem moves_constants (add : ConstantPool → Nat × ConstantPool) :
    Moves d q r p r p id
      (modifyGet fun w =>
        let (index, constants) := add w.constants
        (index, { w with constants }))
      (modifyGet fun w =>
        let (index, constants) := add w.constants
        (index, { w with constants })) := by
  apply moves_modifyGet
  intro w w' hw
  have hindex := congrArg (fun session : Session => (add session.constants).1) hw.session_eq
  have hadded := congrArg (fun session : Session =>
    { session with constants := (add session.constants).2 }) hw.session_eq
  exact ⟨hindex, hw.withSession hadded⟩

theorem moves_literal (bytes : Bytes) :
    Moves d q r p r p id (Gen.literal bytes) (Gen.literal bytes) :=
  moves_constants (·.addLiteral bytes)

theorem moves_charClass (singles : Bytes) (ranges : List (UInt8 × UInt8)) :
    Moves d q r p r p id (Gen.charClass singles ranges) (Gen.charClass singles ranges) :=
  moves_constants (·.addClass singles ranges)

theorem moves_expected (kind : ExpectedKind) (description : String) :
    Moves d q r p r p id (Gen.expected kind description) (Gen.expected kind description) :=
  moves_constants (·.addExpected kind description)

/-- The function of a call depends on the labels only; the call gets their moved slots. -/
theorem moves_call (add : UserTables → List String → Nat × UserTables) (env : Env) :
    Moves d q r p r p (Call.shift d)
      (modifyGet fun w =>
        let (index, user) := add w.user env.keys
        (⟨index, env.values⟩, { w with user }))
      (modifyGet fun w =>
        let (index, user) := add w.user (Env.shift d env).keys
        (⟨index, (Env.shift d env).values⟩, { w with user })) := by
  have hkeys : (Env.shift d env).keys = env.keys := OrderedMap.keys_mapValues _ env
  have hvalues : (Env.shift d env).values = env.values.map (· + d) :=
    OrderedMap.values_mapValues _ env
  rw [hkeys, hvalues]
  apply moves_modifyGet
  intro w w' hw
  have hcall := congrArg (fun session : Session =>
    (⟨(add session.user env.keys).1, env.values.map (· + d)⟩ : Call)) hw.session_eq
  have hadded := congrArg (fun session : Session =>
    { session with user := (add session.user env.keys).2 }) hw.session_eq
  exact ⟨hcall, hw.withSession hadded⟩

theorem moves_predicate (code : UserCode) (env : Env) :
    Moves d q r p r p (Call.shift d) (Gen.predicate code env)
      (Gen.predicate code (Env.shift d env)) :=
  moves_call (·.addPredicate code ·) env

theorem moves_action (code : UserCode) (env : Env) :
    Moves d q r p r p (Call.shift d) (Gen.action code env) (Gen.action code (Env.shift d env)) :=
  moves_call (·.addAction code ·) env

theorem moves_warnIf (condition : Bool) (cx : Context) (kind : DiagnosticKind)
    (region : Option Region) (value : String) :
    Moves d q r p r p id (warnIf condition cx kind region value)
      (warnIf condition cx kind region value) := by
  unfold warnIf
  split
  · unfold warn
    cases cx.policy with
    | strict => exact ⟨fun _ _ hw => ⟨rfl, hw.session_eq⟩⟩
    | collecting =>
      apply moves_modifyGet
      intro w w' hw
      have hadded := congrArg (fun session : Session =>
        { session with diagnostics := session.diagnostics ++
          [(⟨kind, region.or cx.region, value⟩ : Diagnostic)] }) hw.session_eq
      exact ⟨rfl, hw.withSession hadded⟩
  · exact moves_pure rfl

end Gen

namespace Generate

open Code Gen

variable {d q r p : Nat} {inner inner' : Gen Code} {labeled labeled' : Gen (Code × Env)}

/-- The code and the labels after it, both moved up. -/
def shiftOut (d q : Nat) (out : Code × Env) : Code × Env := (out.1.shift d q, Env.shift d out.2)

theorem moves_literal (cx : Context) (region : Option Region) (value : String)
    (ignoreCase : Bool) :
    Moves d q r p (r + 1) p (Code.shift d q) (Generate.literal cx region value ignoreCase)
      (Generate.literal cx region value ignoreCase) := by
  refine (moves_warnIf ..).bind fun _ => (moves_warnIf ..).bind fun _ => ?_
  refine (Gen.moves_literal _).bind fun constant => (moves_expected ..).bind fun expected => ?_
  exact moves_newResult.bind fun slot => moves_pure rfl

theorem moves_charClass (cx : Context) (region : Option Region) (cls : CharClass) :
    Moves d q r p (r + 1) p (Code.shift d q) (Generate.charClass cx region cls)
      (Generate.charClass cx region cls) := by
  refine (moves_warnIf ..).bind fun _ => (moves_warnIf ..).bind fun _ => ?_
  refine (Gen.moves_charClass ..).bind fun constant => (moves_expected ..).bind fun expected => ?_
  exact moves_newResult.bind fun slot => moves_pure rfl

theorem moves_predicate (negated : Bool) (code : UserCode) (env : Env) :
    Moves d q r p (r + 1) p (Code.shift d q) (Generate.predicate negated code env)
      (Generate.predicate negated code (Env.shift d env)) := by
  refine (Gen.moves_predicate code env).bind fun call => moves_newResult.bind fun slot => ?_
  refine moves_replaceResult.bind fun slot' => moves_pure ?_
  cases negated with
  | false => rfl
  | true => rfl

theorem moves_named (name : String) (h : Moves d q r p (r + 1) p (shiftOut d q) labeled labeled') :
    Moves d q r p (r + 1) p (shiftOut d q) (Generate.named name labeled)
      (Generate.named name labeled') := by
  refine (moves_expected ..).bind fun expected => h.bind fun out => ?_
  exact moves_topResult.bind fun slot => moves_replaceResult.bind fun slot' => moves_pure rfl

theorem moves_text (h : Moves d q r (p + 1) (r + 1) (p + 1) (Code.shift d q) inner inner') :
    Moves d q r p (r + 1) p (Code.shift d q) (Generate.text inner) (Generate.text inner') := by
  refine moves_newPosition (h.bind fun code => moves_releasePosition.bind fun _ => ?_)
  exact moves_topResult.bind fun slot => moves_replaceResult.bind fun slot' => moves_pure rfl

theorem moves_action (code : UserCode)
    (h : Moves d q r (p + 1) (r + 1) (p + 1) (shiftOut d q) labeled labeled') :
    Moves d q r p (r + 1) p (Code.shift d q) (Generate.action code labeled)
      (Generate.action code labeled') := by
  refine moves_newPosition (h.bind fun out => ?_)
  refine (Gen.moves_action code out.2).bind fun call => moves_topResult.bind fun slot => ?_
  exact moves_releasePosition.bind fun _ => moves_pure rfl

theorem moves_optional (h : Moves d q r p (r + 1) p (Code.shift d q) inner inner') :
    Moves d q r p (r + 1) p (Code.shift d q) (Generate.optional inner)
      (Generate.optional inner') := by
  refine h.bind fun code => moves_topResult.bind fun slot => ?_
  exact moves_replaceResult.bind fun slot' => moves_pure rfl

theorem moves_lookahead (negated : Bool)
    (h : Moves d q r (p + 1) (r + 1) (p + 1) (Code.shift d q) inner inner') :
    Moves d q r p (r + 1) p (Code.shift d q) (Generate.lookahead negated inner)
      (Generate.lookahead negated inner') := by
  refine moves_newPosition (h.bind fun code => moves_releasePosition.bind fun _ => ?_)
  refine moves_topResult.bind fun slot => moves_replaceResult.bind fun slot' => ?_
  cases negated with
  | false => exact moves_pure rfl
  | true => exact moves_replaceResult.bind fun slot'' => moves_pure rfl

theorem moves_enough (least : UInt32) (array : Nat) :
    Moves d q (r + 1) (p + 1) (r + 1) p (Code.shift d q) (Generate.enough least array p)
      (Generate.enough least (array + d) (p + q)) :=
  moves_releasePosition.bind fun _ => moves_replaceResult.bind fun _ => moves_pure rfl

theorem moves_repeated (quantifier : Quantifier)
    (h : Moves d q (r + 1) (if 0 < quantifier.least then p + 1 else p) (r + 2)
      (if 0 < quantifier.least then p + 1 else p) (Code.shift d q) inner inner') :
    Moves d q r p (r + 1) p (Code.shift d q) (Generate.repeated quantifier inner)
      (Generate.repeated quantifier inner') := by
  unfold Generate.repeated
  by_cases hq : 0 < quantifier.least
  · simp only [if_pos hq, bind_map_left] at h ⊢
    refine moves_newPosition (moves_newResult.bind fun slot => moves_topResult.bind fun array => ?_)
    refine h.bind fun code => moves_popResult.bind fun item => ?_
    refine (moves_enough _ array).bind fun check => moves_pure ?_
    cases quantifier.most <;> rfl
  · simp only [if_neg hq, pure_bind] at h ⊢
    refine moves_newResult.bind fun slot => moves_topResult.bind fun array => ?_
    refine h.bind fun code => moves_popResult.bind fun item => moves_pure ?_
    cases quantifier.most <;> rfl

theorem moves_element (number slot start : Nat) {r' : Nat}
    (h : Moves d q r p (r' + 1) p (shiftOut d q) labeled labeled') :
    Moves d q r p (r' + 1) p (shiftOut d q) (Generate.element number slot start labeled)
      (Generate.element number (slot + d) (start + q) labeled') := by
  refine h.bind fun out => moves_topResult.bind fun failed => ?_
  refine (moves_resultsFrom slot).bind fun done => moves_pure ?_
  have hfrees : (done.map (· + d)).reverse.tail.map Instruction.free =
      (done.reverse.tail.map Instruction.free).map (Instruction.shift d q) := by
    rw [← List.map_reverse, ← List.map_tail, List.map_map, List.map_map]
    rfl
  have hundo : (done.map (· + d)).reverse.tail.map Instruction.free ++
      [Instruction.rewind (start + q), .assign (slot + d) .failed, .leave] =
      (done.reverse.tail.map Instruction.free ++
        [Instruction.rewind start, .assign slot .failed, .leave]).map (Instruction.shift d q) := by
    rw [List.map_append, hfrees]
    rfl
  exact congrArg (fun undo => (all [remark (.element number), out.1.shift d q,
    branch (.failed (failed + d)) undo [], blank], Env.shift d out.2)) hundo

theorem moves_sequence {scope : Scope} {count : Nat} {elements elements' : Nat → Gen (Code × Env)}
    (h : Moves d q scope.slot (p + 1) (scope.slot + count) (p + 1) (shiftOut d q) (elements p)
      (elements' (p + q))) :
    Moves d q scope.slot p (scope.slot + 1) p (shiftOut d q)
      (Generate.sequence scope count elements)
      (Generate.sequence (scope.shift d) count elements') := by
  obtain ⟨slot, env, action⟩ := scope
  refine moves_newPosition (h.bind fun out => (moves_popResults count).bind fun values => ?_)
  refine moves_releasePosition.bind fun _ => ?_
  cases action with
  | none =>
    have hcall : Moves d q slot p slot p (Code.shift d q) (pure skip) (pure skip) := moves_pure rfl
    exact hcall.bind fun call => moves_newResult.bind fun slot' => moves_pure rfl
  | some code =>
    have hcall : Moves d q slot p slot p (Code.shift d q)
        ((instr <| .act ·) <$> Gen.action code out.2)
        ((instr <| .act ·) <$> Gen.action code (Env.shift d out.2)) :=
      (Gen.moves_action code out.2).map fun _ => rfl
    exact hcall.bind fun call => moves_newResult.bind fun slot' => moves_pure rfl

theorem moves_alternative (number : Nat)
    (h : Moves d q r p (r + 1) p (Code.shift d q) inner inner') :
    Moves d q r p r p (Code.shift d q) (Generate.alternative number inner)
      (Generate.alternative number inner') :=
  h.bind fun _ => moves_popResult.bind fun _ => moves_pure rfl

end Generate

namespace Expr

open Code Gen Generate

variable {d q p : Nat}

/-- In step with its scope, the code of an expression moves with its slots. -/
def Relocates (d q : Nat) (e : Expr) : Prop :=
  ∀ (cx : Context) (scope : Scope) (p : Nat),
    Moves d q scope.slot p (scope.slot + 1) p (shiftOut d q) (e.generate cx scope)
      (e.generate cx (scope.shift d))

theorem Relocates.code {e : Expr} (he : e.Relocates d q) (cx : Context) (scope : Scope) (p : Nat) :
    Moves d q scope.slot p (scope.slot + 1) p (Code.shift d q) (Prod.fst <$> e.generate cx scope)
      (Prod.fst <$> e.generate cx (scope.shift d)) :=
  (he cx scope p).map fun _ => rfl

theorem moves_elements {elements : List Expr} (he : ∀ e ∈ elements, e.Relocates d q)
    (cx : Context) (slot start done : Nat) (env : Env) :
    Moves d q (slot + done) p (slot + done + elements.length) p (shiftOut d q)
      (generateElements cx slot start done env elements)
      (generateElements cx (slot + d) (start + q) done (Env.shift d env) elements) := by
  induction elements generalizing done env with
  | nil => exact moves_pure rfl
  | cons first rest ih =>
    have hfirst := he first List.mem_cons_self cx ⟨slot + done, env, none⟩ p
    have hrest := ih (fun e hmem => he e (List.mem_cons_of_mem first hmem)) (done + 1)
    have hscope : Scope.shift d ⟨slot + done, env, none⟩ =
        ⟨slot + d + done, Env.shift d env, none⟩ := by
      simp only [Scope.shift, Nat.add_right_comm slot done d]
    rw [hscope] at hfirst
    have hcount : slot + (done + 1) + rest.length = slot + done + (first :: rest).length := by
      rw [List.length_cons]
      omega
    rw [hcount] at hrest
    refine (moves_element (done + 1) slot start hfirst).bind fun out => ?_
    exact (hrest out.2).bind fun more => moves_pure rfl

theorem moves_alternatives {alternatives : List Expr} (hne : alternatives ≠ [])
    (he : ∀ e ∈ alternatives, e.Relocates d q) (cx : Context) (scope : Scope) (number : Nat) :
    Moves d q scope.slot p (scope.slot + 1) p (Code.shift d q)
      (generateAlternatives cx scope number alternatives)
      (generateAlternatives cx (scope.shift d) number alternatives) := by
  induction alternatives generalizing number with
  | nil => exact absurd rfl hne
  | cons first rest ih =>
    have hfirst := he first List.mem_cons_self
    cases rest with
    | nil =>
      exact (hfirst cx (scope.branch scope.slot) p).bind fun out => moves_pure rfl
    | cons second rest =>
      have hrest := ih (List.cons_ne_nil _ _) fun e hmem => he e (List.mem_cons_of_mem first hmem)
      refine (moves_alternative number (hfirst.code cx (scope.branch scope.slot) p)).bind
        fun code => ?_
      exact (hrest (number + 1)).bind fun more => moves_pure rfl

/-- The code of every expression moves with its slots. -/
theorem relocates (d q : Nat) (e : Expr) : e.Relocates d q := by
  induction e using Expr.induction with
  | named region name inner ih =>
    intro cx scope p
    exact Moves.inStep (moves_named name (ih cx scope p))
  | choice region alternatives ih =>
    intro cx scope p
    cases alternatives with
    | nil => exact Moves.inStep (moves_newResult.bind fun slot => moves_pure rfl)
    | cons first rest =>
      have hne := List.cons_ne_nil first rest
      exact Moves.inStep ((moves_alternatives hne ih cx scope 1).bind fun code => moves_pure rfl)
  | sequence region elements ih =>
    intro cx scope p
    exact Moves.inStep (moves_sequence (moves_elements ih cx scope.slot p 0 scope.env))
  | labeled region label inner ih =>
    intro cx scope p
    have henv : Env.shift d (scope.bind label).env = ((scope.shift d).bind label).env :=
      OrderedMap.mapValues_insert (· + d) scope.env label scope.slot
    have hinner := ih cx ((scope.bind label).branch scope.slot) p
    have hscope : ((scope.bind label).branch scope.slot).shift d =
        ((scope.shift d).bind label).branch (scope.slot + d) := by
      simp only [Scope.branch, Scope.shift, henv]
    rw [hscope] at hinner
    refine Moves.inStep (hinner.bind fun out => moves_pure ?_)
    rw [shiftOut, henv]
  | text region inner ih =>
    intro cx scope p
    have hinner := ih.code cx (scope.branch scope.slot) (p + 1)
    exact Moves.inStep ((moves_text hinner).bind fun code => moves_pure rfl)
  | optional region inner ih =>
    intro cx scope p
    have hinner := ih.code cx (scope.branch scope.slot) p
    exact Moves.inStep ((moves_optional hinner).bind fun code => moves_pure rfl)
  | repeated region quantifier inner ih =>
    intro cx scope p
    have hinner := ih.code cx (scope.branch (scope.slot + 1))
      (if 0 < quantifier.least then p + 1 else p)
    have hscope : (scope.branch (scope.slot + 1)).shift d =
        (scope.shift d).branch (scope.slot + d + 1) := by
      simp only [Scope.branch, Scope.shift, Nat.add_right_comm scope.slot 1 d]
    rw [hscope] at hinner
    exact Moves.inStep ((moves_repeated quantifier hinner).bind fun code => moves_pure rfl)
  | lookahead region negated inner ih =>
    intro cx scope p
    have hinner := ih.code cx (scope.branch scope.slot) (p + 1)
    exact Moves.inStep ((moves_lookahead negated hinner).bind fun code => moves_pure rfl)
  | predicate region negated code =>
    intro cx scope p
    apply Moves.inStep
    exact (Generate.moves_predicate negated code scope.env).bind fun out => moves_pure rfl
  | action region code inner ih =>
    intro cx scope p
    apply Moves.inStep
    by_cases hseq : inner.isSequence = true
    · rw [if_pos hseq, if_pos hseq]
      exact (ih.code cx (scope.withAction code) p).bind fun out => moves_pure rfl
    · rw [if_neg hseq, if_neg hseq]
      have hinner := ih cx (scope.branch scope.slot) (p + 1)
      exact (Generate.moves_action code hinner).bind fun out => moves_pure rfl
  | ruleRef region name =>
    intro cx scope p
    exact Moves.inStep (moves_newResult.bind fun slot => moves_pure rfl)
  | literal region value ignoreCase =>
    intro cx scope p
    apply Moves.inStep
    exact (Generate.moves_literal cx region value ignoreCase).bind fun code => moves_pure rfl
  | charClass region cls =>
    intro cx scope p
    apply Moves.inStep
    exact (Generate.moves_charClass cx region cls).bind fun code => moves_pure rfl
  | any region =>
    intro cx scope p
    exact Moves.inStep (moves_newResult.bind fun slot => moves_pure rfl)

end Expr

/-- A scope is in step with the live results, and the expression is generated in it and again where
`d` more results and `q` more positions are live, with the slot of every label `d` higher. Both runs
end alike, with the same tables and warnings. Their lines are the same but for the names of the
locals, each of which is moved up, and at `k` levels more every line with text is set in by as much.
The labels in sight after the expression are moved up, too. -/
theorem code_is_relocatable (cx : Context) (e : Expr) (scope : Scope) (d q p : Nat)
    (w w' : Workspace) (hw : w.Apart d q scope.slot p w') :
    match e.generate cx scope w, e.generate cx (scope.shift d) w' with
    | .ok (code, env) v, .ok (code', env') v' =>
      code' = code.shift d q ∧
      (∀ n k, code.lines n = code.rows.map (Row.line n) ∧
        code'.lines (n + k) =
          code.rows.map fun row => Lines.placed k ((row.shift d q).line n)) ∧
      (∀ row ∈ code.rows, row.HidesNone) ∧
      env' = Env.shift d env ∧ v.Apart d q (scope.slot + 1) p v'
    | .error error v, .error error' v' => error' = error ∧ v'.toSession = v.toSession
    | _, _ => False := by
  have hruns := (e.relocates d q cx scope p).ends w w' hw
  cases hrun : e.generate cx scope w with
  | ok out v =>
    obtain ⟨code, env⟩ := out
    cases hrun' : e.generate cx (scope.shift d) w' with
    | ok out' v' =>
      rw [hrun, hrun'] at hruns
      obtain ⟨rfl, hv⟩ := hruns
      refine ⟨rfl, ?_, code.hidesNone_rows, rfl, hv⟩
      intro n k
      exact ⟨code.lines_eq n, code.lines_shift d q n k⟩
    | error error' v' => simp only [hrun, hrun'] at hruns
  | error error v =>
    cases hrun' : e.generate cx (scope.shift d) w' with
    | ok out' v' => simp only [hrun, hrun'] at hruns
    | error error' v' =>
      rw [hrun, hrun'] at hruns
      exact hruns

/-- A repetition with a label, then a predicate that sees it and another label from outside, in slot
1 and again in slot 3 with a position saved before. -/
theorem code_is_relocatable_of_labeled :
    let e := Expr.sequence none [.labeled none "x" (.repeated none .oneOrMore (.any none)),
      .predicate none false ⟨"main", "return 1;"⟩]
    let scope : Scope := ⟨1, ⟨[("y", 0)]⟩, none⟩
    let w : Workspace := { results := ⟨"r", "ResultPtr", 1, 1⟩, checked := true }
    let w' : Workspace :=
      { results := ⟨"r", "ResultPtr", 3, 3⟩
        positions := ⟨"p", "struct Location", 1, 1⟩
        checked := true }
    w.Apart 2 1 scope.slot 0 w' ∧
      ∃ code env v v', e.generate ⟨.strict, none⟩ scope w = .ok (code, env) v ∧
        e.generate ⟨.strict, none⟩ (scope.shift 2) w' =
          .ok (code.shift 2 1, Env.shift 2 env) v' ∧
        (∀ n k, (code.shift 2 1).lines (n + k) =
          code.rows.map fun row => Lines.placed k ((row.shift 2 1).line n)) ∧
        v'.toSession = v.toSession := by
  intro e scope w w'
  have hw : w.Apart 2 1 scope.slot 0 w' := ⟨rfl, rfl, rfl, rfl, rfl⟩
  have hruns : (match e.generate ⟨.strict, none⟩ scope w with
      | .ok .. => true
      | .error .. => false) = true := by decide +kernel
  -- That the first run ends well is all there is to evaluate.
  clear_value e scope w w'
  have hends := code_is_relocatable ⟨.strict, none⟩ e scope 2 1 0 w w' hw
  refine ⟨hw, ?_⟩
  cases hrun : e.generate ⟨.strict, none⟩ scope w with
  | error error v =>
    rw [hrun] at hruns
    cases hruns
  | ok out v =>
    obtain ⟨code, env⟩ := out
    cases hrun' : e.generate ⟨.strict, none⟩ (scope.shift 2) w' with
    | error error' v' => simp only [hrun, hrun'] at hends
    | ok out' v' =>
      obtain ⟨code', env'⟩ := out'
      rw [hrun, hrun'] at hends
      obtain ⟨rfl, hlines, -, rfl, hv⟩ := hends
      exact ⟨code, env, v, v', rfl, rfl, fun n k => (hlines n k).2, hv.session_eq⟩

end Backtrack
