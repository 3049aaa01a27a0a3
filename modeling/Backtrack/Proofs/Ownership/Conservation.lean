import Backtrack.Proofs.Listing.Functions
import Backtrack.Proofs.Ownership.Accounts

/-!
# The function of a rule

Every run of a rule's function gives back what it created: each value is freed or belongs to the
result, and nothing is handed over after it was freed or given away.
-/

namespace Backtrack

set_option autoImplicit false

open Code

namespace Expr

def Accounted (tables : Session) (e : Expr) : Prop :=
  ∀ (scope : Scope) (start : Nat), Accounts scope.slot (e.lower tables scope start).Runs

theorem accounted_elements {tables : Session} {elements : List Expr}
    (h : ∀ e ∈ elements, e.Accounted tables) (slot start done : Nat) (env : Env) :
    Template.AccountsRow slot done elements.length
      (lowerElements tables slot start done env elements) := by
  induction elements generalizing done env with
  | nil => exact Template.accountsRow_nil done
  | cons first rest ih =>
    obtain ⟨hfirst, hrest⟩ := List.forall_mem_cons.mp h
    exact Template.accountsRow_cons (hfirst ⟨slot + done, env, none⟩ (start + 1))
      (ih hrest (done + 1) (first.envAfter (slot + done) env))

theorem accounted_alternatives {tables : Session} {first : Expr} {rest : List Expr}
    (h : ∀ e ∈ first :: rest, e.Accounted tables) (scope : Scope) (start number : Nat) :
    Template.AccountsFirst scope.slot
      (lowerAlternatives tables scope start number (first :: rest)) := by
  induction rest generalizing first number with
  | nil =>
    exact Template.accountsFirst_last number
      (h first List.mem_cons_self (scope.branch scope.slot) start)
  | cons second rest ih =>
    obtain ⟨hfirst, hrest⟩ := List.forall_mem_cons.mp h
    exact Template.accountsFirst_cons number (hfirst (scope.branch scope.slot) start)
      (ih hrest (number + 1))

theorem accounted (tables : Session) (e : Expr) : e.Accounted tables := by
  induction e using Expr.induction with
  | named region name inner ih =>
    intro scope start
    exact Template.accounts_named (ih scope start) _
  | choice region alternatives ih =>
    intro scope start
    cases alternatives with
    | nil => exact accounts_assign Operand.simple_failed
    | cons first rest => exact Template.accounts_choice (accounted_alternatives ih scope start 1)
  | sequence region elements ih =>
    intro scope start
    rw [lower]
    apply Template.accounts_sequence _ (accounted_elements ih scope.slot start 0 scope.env)
    cases scope.action with
    | none => exact idle_skip
    | some code => exact idle_act _
  | labeled region label inner ih =>
    intro scope start
    exact ih ((scope.bind label).branch scope.slot) start
  | text region inner ih =>
    intro scope start
    exact Template.accounts_text (ih (scope.branch scope.slot) (start + 1))
  | optional region inner ih =>
    intro scope start
    exact Template.accounts_optional (ih (scope.branch scope.slot) start)
  | repeated region quantifier inner ih =>
    intro scope start
    exact Template.accounts_repeated quantifier (ih (scope.branch (scope.slot + 1)) _)
  | lookahead region negated inner ih =>
    intro scope start
    exact Template.accounts_lookahead (ih (scope.branch scope.slot) (start + 1)) negated
  | predicate region negated code =>
    intro scope start
    exact Template.accounts_predicate negated _
  | action region code inner ih =>
    intro scope start
    rw [lower]
    split
    · exact ih (scope.withAction code) start
    · exact Template.accounts_action (ih (scope.branch scope.slot) (start + 1)) _
  | ruleRef region name =>
    intro scope start
    exact accounts_assign fun _ _ _ h => h
  | literal region value ignoreCase =>
    intro scope start
    exact accounts_assign fun _ _ _ h => h
  | charClass region cls =>
    intro scope start
    exact accounts_assign fun _ _ _ h => h
  | any region =>
    intro scope start
    exact accounts_assign fun _ _ _ h => h

end Expr

/-- However a run of a rule's printed function goes, it returns. No value was handed to the runtime after it
was freed or given away, and every value that was created was freed once or belongs once to the
result, but not both. -/
theorem every_value_freed_or_returned (policy : Policy) (session : Session) (rule : Rule)
    {function : RuleFunction} {grown : Session}
    (hrule : session.compileRule policy rule = (.ok function, grown)) :
    ∃ read, Listing.function? function.lines.toList = some read ∧
      ∀ (results : Nat → Ref) (ending : Ending) (s : Store),
        read.body.Runs ⟨results, {}⟩ ending s →
          ending = .done ∧ s.heap.misused = [] ∧
            (s.heap.freed ++ s.heap.owned (s.results read.result)).Perm
              (List.range s.heap.cells.length) := by
  refine ⟨_, Session.function?_compileRule hrule, ?_⟩
  intro results ending s hrun
  rw [Code.runs_plain] at hrun
  obtain ⟨hbody, -⟩ := Session.codeOf_compileRule hrule (.refl grown)
  have haccounts : Accounts 0 function.body.Runs := by
    rw [hbody]
    exact rule.expression.accounted grown Scope.root 0
  have hempty : (⟨results, {}⟩ : Store).Owns 0 := ⟨rfl, nofun, nofun, [], .empty, .refl _⟩
  obtain ⟨hdone, howns, -⟩ := haccounts _ ending s hempty hrun
  obtain ⟨rest, -, hrest, hshares⟩ := howns.top.owned
  cases hrest
  rw [List.append_nil] at hshares
  rw [Session.result_compileRule hrule]
  exact ⟨hdone, howns.clean, hshares⟩

/-- The second of two elements fails, and the first is freed. -/
theorem every_value_freed_or_returned_of_pair :
    let rule : Rule := ⟨"R", .sequence none [.any none, .ruleRef none "S"], none⟩
    ∃ function grown, ({} : Session).compileRule .strict rule = (.ok function, grown) ∧
      ∃ read, Listing.function? function.lines.toList = some read ∧
        ∃ s, read.body.Runs ⟨fun _ => .nil, {}⟩ .done s ∧ s.results read.result = .failed ∧
          s.heap.misused = [] ∧ (s.heap.freed ++ s.heap.owned (s.results read.result)).Perm [0] := by
  intro rule
  have hrule : ({} : Session).compileRule .strict rule = (.ok _, _) := rfl
  let s : Store := ⟨fun _ => .nil, {}⟩
  let matched : Store := s.assign 0 (.value 0) s.heap.create
  let failed : Store := matched.assign 1 .failed matched.heap
  let freed : Store := { failed with heap := failed.heap.release (failed.results 0) }
  let last : Store := freed.assign 0 .failed freed.heap
  have hundo : Instruction.RunsAll [.free 0, .rewind 0, .assign 0 .failed, .leave] failed .left
      last :=
    Or.inl ⟨freed, ⟨rfl, rfl⟩, Or.inl ⟨freed, ⟨rfl, rfl⟩,
      Or.inl ⟨last, ⟨rfl, _, _, ⟨rfl, rfl⟩, rfl⟩, Or.inr ⟨nofun, rfl, rfl⟩⟩⟩⟩
  have hfirst : (Template.element 0 0 0 (instr (.assign 0 .anyByte))).Runs s .done matched :=
    Or.inl ⟨s, ⟨rfl, rfl⟩, Or.inl ⟨matched, ⟨rfl, _, _, Or.inr ⟨rfl, rfl⟩, rfl⟩,
      Or.inl ⟨matched, Or.inr ⟨rfl, rfl, rfl⟩, Or.inl ⟨matched, ⟨rfl, rfl⟩, rfl, rfl⟩⟩⟩⟩
  have hsecond : (Template.element 1 0 0 (instr (.assign 1 (.rule "S")))).Runs matched .left
      last :=
    Or.inl ⟨matched, ⟨rfl, rfl⟩, Or.inl ⟨failed, ⟨rfl, .failed, _, Or.inl ⟨rfl, rfl⟩, rfl⟩,
      Or.inr ⟨nofun, Or.inl ⟨rfl, hundo⟩⟩⟩⟩
  have hrun : (rule.expression.lower {} Scope.root 0).Runs s .done last :=
    Or.inl ⟨s, ⟨rfl, rfl⟩, rfl,
      Or.inr (Or.inr ⟨nofun, Or.inl ⟨matched, hfirst, Or.inr ⟨nofun, hsecond⟩⟩⟩)⟩
  obtain ⟨read, hread, hall⟩ := every_value_freed_or_returned .strict {} rule hrule
  obtain rfl := Option.some.inj ((Session.function?_compileRule hrule).symm.trans hread)
  rw [← Code.runs_plain] at hrun
  obtain ⟨-, hclean, hshares⟩ := hall _ _ _ hrun
  exact ⟨_, _, hrule, _, hread, last, hrun, rfl, hclean, hshares⟩

end Backtrack
