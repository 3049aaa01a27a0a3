import Backtrack.Proofs.Generation.Lowering
import Backtrack.Proofs.Generation.Traversal
import Backtrack.Proofs.Maps.Insertion

/-!
# What an expression lets others see

An expression gives labels to those after it only through a label of its own, through the elements of
a sequence and through a name. All other kinds keep the labels that are bound inside to themselves.
This holds wherever generation succeeds, also where the scope is not in step with the slot stacks.
-/

namespace Backtrack

set_option autoImplicit false

mutual

/-- The labels that an expression in `slot` gives to those after it, with their slots. -/
def Expr.exportsAt (slot : Nat) : Expr → List (String × Nat)
  | .labeled _ label _ => [(label, slot)]
  | .sequence _ elements => Expr.exportsAtAll slot elements
  | .named _ _ inner => inner.exportsAt slot
  | .choice .. | .text .. | .optional .. | .repeated .. | .lookahead .. | .predicate ..
  | .action .. | .ruleRef .. | .literal .. | .charClass .. | .any .. => []

/-- The labels of elements, each in the slot after the one before. -/
def Expr.exportsAtAll (slot : Nat) : List Expr → List (String × Nat)
  | [] => []
  | first :: rest => first.exportsAt slot ++ Expr.exportsAtAll (slot + 1) rest

end

namespace Expr

open Gen

/-- The labels after an expression are those before it and those that it exports. -/
theorem envAfter_eq_insertAll (e : Expr) (slot : Nat) (env : Env) :
    e.envAfter slot env = env.insertAll (e.exportsAt slot) := by
  induction e using Expr.induction generalizing slot env with
  | named region name inner ih => exact ih slot env
  | sequence region elements ih =>
    rw [envAfter, exportsAt]
    induction elements generalizing slot env with
    | nil => rfl
    | cons first rest ihrest =>
      obtain ⟨hfirst, hrest⟩ := List.forall_mem_cons.mp ih
      rw [envAfterAll, exportsAtAll, OrderedMap.insertAll_append, hfirst, ihrest hrest]
  | _ => rfl

/-- Generation returns the labels after the expression. -/
def ReturnsEnv (e : Expr) : Prop :=
  ∀ cx scope, Returns (e.generate cx scope) fun out => out.2 = e.envAfter scope.slot scope.env

theorem returnsEnv_elements {elements : List Expr} (h : ∀ e ∈ elements, e.ReturnsEnv)
    (cx : Context) (slot start done : Nat) (env : Env) :
    Returns (generateElements cx slot start done env elements)
      fun out => out.2 = envAfterAll (slot + done) env elements := by
  induction elements generalizing done env with
  | nil => exact returns_pure rfl
  | cons first rest ih =>
    obtain ⟨hfirst, hrest⟩ := List.forall_mem_cons.mp h
    have helement : Returns (Generate.element (done + 1) slot start
        (first.generate cx ⟨slot + done, env, none⟩))
        fun out => out.2 = first.envAfter (slot + done) env := by
      refine (hfirst cx ⟨slot + done, env, none⟩).bind fun out hout => ?_
      exact returns_bind fun _ => returns_bind fun _ => returns_pure hout
    refine helement.bind ?_
    rintro ⟨code, between⟩ rfl
    exact (ih hrest (done + 1) _).bind fun out hout => returns_pure hout

theorem returnsEnv (e : Expr) : e.ReturnsEnv := by
  induction e using Expr.induction with
  | named region name inner ih =>
    intro cx scope
    refine returns_inStep scope (returns_bind fun _ => (ih cx scope).bind fun out hout => ?_)
    exact returns_bind fun _ => returns_bind fun _ => returns_pure hout
  | sequence region elements ih =>
    intro cx scope
    refine returns_inStep scope (returns_bind fun start => ?_)
    refine (returnsEnv_elements ih cx scope.slot start 0 scope.env).bind fun out hout => ?_
    refine returns_bind fun _ => returns_bind fun _ => ?_
    cases scope.action with
    | none => exact returns_bind fun _ => returns_bind fun _ => returns_pure hout
    | some code => exact returns_bind fun _ => returns_bind fun _ => returns_pure hout
  | labeled region label inner ih =>
    exact fun cx scope => returns_inStep scope (returns_bind fun _ => returns_pure rfl)
  | choice region alternatives ih =>
    intro cx scope
    cases alternatives with
    | nil => exact returns_inStep scope (returns_bind fun _ => returns_pure rfl)
    | cons first rest => exact returns_inStep scope (returns_bind fun _ => returns_pure rfl)
  | action region code inner ih =>
    intro cx scope
    by_cases hseq : inner.isSequence = true
    · refine returns_inStep scope ?_
      simp only [if_pos hseq]
      exact returns_bind fun _ => returns_pure rfl
    · refine returns_inStep scope ?_
      simp only [if_neg hseq]
      exact returns_bind fun _ => returns_pure rfl
  | text | optional | repeated | lookahead | predicate | ruleRef | literal | charClass | any =>
    exact fun cx scope => returns_inStep scope (returns_bind fun _ => returns_pure rfl)

end Expr

/-- Generation leaves the slot and the action of the scope and inserts the exported labels in order:
a label that is there keeps its place and takes the new slot. So no label is there twice, and what is
bound inside any kind but a sequence and a name stays there. -/
theorem labels_stay_in_scope (cx : Context) (scope : Scope) (e : Expr) {w w' : Workspace}
    {code : Code} {env : Env} (h : e.generate cx scope w = .ok (code, env) w') :
    { scope with env := env } =
      (⟨scope.slot, scope.env.insertAll (e.exportsAt scope.slot), scope.action⟩ : Scope) ∧
    (scope.env.keys.Nodup → env.keys.Nodup ∧
      env.keys = (scope.env.keys ++ (e.exportsAt scope.slot).map Prod.fst).eraseDups) ∧
    (∀ label, env.get? label =
      ((e.exportsAt scope.slot).reverse.lookup label).or (scope.env.get? label)) ∧
    match e with
    | .sequence .. | .named .. => True
    | .labeled _ label _ => env = scope.env.insert label scope.slot
    | .choice .. | .text .. | .optional .. | .repeated .. | .lookahead .. | .predicate ..
    | .action .. | .ruleRef .. | .literal .. | .charClass .. | .any .. => env = scope.env := by
  have henv : env = scope.env.insertAll (e.exportsAt scope.slot) :=
    (e.returnsEnv cx scope w (code, env) w' h).trans (e.envAfter_eq_insertAll scope.slot scope.env)
  refine ⟨?_, ?_, ?_, ?_⟩
  · rw [henv]
  · intro hnodup
    have hkeys := OrderedMap.keys_insertAll (eraseDups_of_nodup hnodup).symm
      (e.exportsAt scope.slot)
    rw [henv, hkeys]
    exact ⟨nodup_eraseDups _, rfl⟩
  · intro label
    rw [henv]
    exact OrderedMap.get?_insertAll _ _ label
  · cases e with
    | sequence | named => exact True.intro
    | _ => exact henv

/-- A label that is bound again by the second element, under a name, keeps the place that it has from
outside; those bound below a text and in an alternative are gone. -/
theorem labels_stay_in_scope_of_rebound :
    let e := Expr.sequence none [.labeled none "y" (.text none (.labeled none "z" (.any none))),
      .named none "n" (.labeled none "x" (.any none)),
      .choice none [.labeled none "v" (.any none), .any none]]
    let scope : Scope := ⟨1, ⟨[("x", 0)]⟩, none⟩
    let w : Workspace := { results := ⟨"r", "ResultPtr", 1, 1⟩, checked := true }
    ∃ code env w', e.generate ⟨.strict, none⟩ scope w = .ok (code, env) w' ∧
      env.entries = [("x", 2), ("y", 1)] := by
  intro e scope w
  have hruns : (match e.generate ⟨.strict, none⟩ scope w with
      | .ok .. => true
      | .error .. => false) = true := by decide +kernel
  cases hgen : e.generate ⟨.strict, none⟩ scope w with
  | error error w' =>
    rw [hgen] at hruns
    cases hruns
  | ok out w' =>
    refine ⟨out.1, out.2, w', rfl, ?_⟩
    have hscope := (labels_stay_in_scope ⟨.strict, none⟩ scope e hgen).1
    calc out.2.entries = (scope.env.insertAll (e.exportsAt scope.slot)).entries :=
          congrArg (fun scope => scope.env.entries) hscope
      _ = [("x", 2), ("y", 1)] := by decide +kernel

end Backtrack
