import Backtrack.Proofs.Assignment.Rows
import Backtrack.Proofs.Generation.ClosedForm
import Backtrack.Proofs.Listing.Functions

/-!
# Locals that are read before they are assigned

Which locals a rule function can read too early can be told from the expression. It is never a
saved position, and never a read that the code makes for itself: it is the slot of a label that is
passed to user code before the labelled expression has assigned to it.
-/

namespace Backtrack

set_option autoImplicit false

open Code

namespace Session

variable (tables : Session) (action : Option UserCode) (env : Env)

theorem path_pendingCall (s : Locals) (ending : Ending) (s' : Locals) :
    (tables.pendingCall action env).Path s ending s' ↔ ending = .done ∧ s' = s := by
  cases action with
  | none => exact Iff.rfl
  | some code => exact Iff.rfl

theorem strays_pendingCall (s : Locals) (l : Local) :
    (tables.pendingCall action env).Strays s l ↔
      ∃ t ∈ (if action.isSome then env.values else []), l = .result t ∧ s.results t = .blank := by
  cases action with
  | none => simp [pendingCall]
  | some code =>
    simp [pendingCall, actionCall]
    grind

end Session

namespace Expr

mutual

/-- Some path through an expression at `slot` ends with this outcome and assigns nothing to the
result slot `t`. -/
def keeps (t : Nat) (matched : Bool) (slot : Nat) : Expr → Bool
  | .named _ _ inner | .labeled _ _ inner | .text _ inner | .action _ _ inner =>
    inner.keeps t matched slot
  | .choice _ alternatives => t != slot && keepsFirst t matched slot alternatives
  | .sequence _ elements => t != slot && keepsAll t matched slot elements
  | .optional _ inner => matched && (inner.keeps t true slot || inner.keeps t false slot)
  | .repeated _ quantifier inner => t != slot &&
    quantifier.keeps (inner.keeps t true (slot + 1)) (inner.keeps t false (slot + 1)) matched
  | .lookahead _ negated inner => inner.keeps t (matched ^^ negated) slot
  | .predicate .. | .ruleRef .. | .literal .. | .charClass .. | .any .. => t != slot

def keepsAll (t : Nat) (matched : Bool) (slot : Nat) : List Expr → Bool
  | [] => matched
  | first :: rest =>
    !matched && first.keeps t false slot ||
      first.keeps t true slot && keepsAll t matched (slot + 1) rest

def keepsFirst (t : Nat) (matched : Bool) (slot : Nat) : List Expr → Bool
  | [] => !matched
  | first :: rest =>
    matched && first.keeps t true slot ||
      first.keeps t false slot && keepsFirst t matched slot rest

end

mutual

/-- Some path through an expression at `slot` passes the result slot `t` to user code and has
assigned nothing to it. A sequence that is `acting` has an action to call before it is done. -/
def exposes (t : Nat) (acting : Bool) (slot : Nat) (env : Env) : Expr → Bool
  | .named _ _ inner => inner.exposes t acting slot env
  | .choice _ alternatives => exposesFirst t slot env alternatives
  | .sequence _ elements => exposesAll t slot env elements ||
    keepsAll t true slot elements && acting && (envAfterAll slot env elements).values.contains t
  | .labeled _ label inner => inner.exposes t false slot (env.insert label slot)
  | .text _ inner | .optional _ inner | .lookahead _ _ inner => inner.exposes t false slot env
  | .repeated _ quantifier inner => t != slot && !Template.isFull quantifier.most 0 &&
    inner.exposes t false (slot + 1) env
  | .predicate .. => env.values.contains t
  | .action _ _ inner =>
    if inner.isSequence then inner.exposes t true slot env
    else inner.exposes t false slot env ||
      inner.keeps t true slot && (inner.envAfter slot env).values.contains t
  | .ruleRef .. | .literal .. | .charClass .. | .any .. => false

def exposesAll (t : Nat) (slot : Nat) (env : Env) : List Expr → Bool
  | [] => false
  | first :: rest => first.exposes t false slot env ||
    first.keeps t true slot && exposesAll t (slot + 1) (first.envAfter slot env) rest

def exposesFirst (t : Nat) (slot : Nat) (env : Env) : List Expr → Bool
  | [] => false
  | first :: rest => first.exposes t false slot env ||
    first.keeps t false slot && exposesFirst t slot env rest

end

/-- The paths through the code of an expression, in every scope. -/
def Traced (tables : Session) (e : Expr) : Prop :=
  ∀ (scope : Scope) (start : Nat), Traces [] (e.lower tables scope start) scope.slot
    (fun t matched => e.keeps t matched scope.slot)
    fun t => e.exposes t scope.action.isSome scope.slot scope.env

theorem traced_elements {tables : Session} {elements : List Expr}
    (h : ∀ e ∈ elements, e.Traced tables) (slot start done : Nat) (env : Env) :
    Template.TracesRow (lowerElements tables slot start done env elements) slot start done
      elements.length (fun t matched => keepsAll t matched (slot + done) elements)
      fun t => exposesAll t (slot + done) env elements := by
  induction elements generalizing done env with
  | nil => exact Template.tracesRow_nil slot start done
  | cons first rest ih =>
    obtain ⟨hfirst, hrest⟩ := List.forall_mem_cons.mp h
    exact Template.tracesRow_cons (hfirst ⟨slot + done, env, none⟩ (start + 1))
      (ih hrest (done + 1) (first.envAfter (slot + done) env))

theorem traced_alternatives {tables : Session} {first : Expr} {rest : List Expr}
    (h : ∀ e ∈ first :: rest, e.Traced tables) (scope : Scope) (start number : Nat) :
    Template.TracesFirst (lowerAlternatives tables scope start number (first :: rest)) scope.slot
      (fun t matched => keepsFirst t matched scope.slot (first :: rest))
      fun t => exposesFirst t scope.slot scope.env (first :: rest) := by
  induction rest generalizing first number with
  | nil =>
    have hfirst := h first List.mem_cons_self (scope.branch scope.slot) start
    have hexposes : (fun t => exposesFirst t scope.slot scope.env [first]) =
        fun t => first.exposes t false scope.slot scope.env := by
      funext t
      simp only [exposesFirst, Bool.and_false, Bool.or_false]
    rw [hexposes]
    exact Template.tracesFirst_last number hfirst
  | cons second rest ih =>
    obtain ⟨hfirst, hrest⟩ := List.forall_mem_cons.mp h
    exact Template.tracesFirst_cons number (hfirst (scope.branch scope.slot) start)
      (ih hrest (number + 1))

theorem traced (tables : Session) (e : Expr) : e.Traced tables := by
  induction e using Expr.induction with
  | named region name inner ih =>
    intro scope start
    exact Template.traces_named _ _ (ih scope start)
  | choice region alternatives ih =>
    intro scope start
    cases alternatives with
    | nil => exact traces_failed scope.slot
    | cons first rest => exact Template.traces_choice (traced_alternatives ih scope start 1)
  | sequence region elements ih =>
    intro scope start
    have hrow := traced_elements ih scope.slot start 0 scope.env
    exact (Template.traces_sequence hrow (tables.path_pendingCall scope.action _)
      (tables.strays_pendingCall scope.action _)).describe (fun _ _ => rfl) fun t => by
        cases scope.action <;> simp [exposes]
  | labeled region label inner ih =>
    intro scope start
    exact ih ((scope.bind label).branch scope.slot) start
  | text region inner ih =>
    intro scope start
    exact Template.traces_text _ _ (ih (scope.branch scope.slot) (start + 1))
  | optional region inner ih =>
    intro scope start
    exact Template.traces_optional _ (ih (scope.branch scope.slot) start)
  | repeated region quantifier inner ih =>
    intro scope start
    exact Template.traces_repeated (ih (scope.branch (scope.slot + 1)) _) quantifier start
  | lookahead region negated inner ih =>
    intro scope start
    exact Template.traces_lookahead _ _ negated (ih (scope.branch scope.slot) (start + 1))
  | predicate region negated code =>
    intro scope start
    exact Template.traces_predicate scope.slot negated (tables.predicateCall code scope.env)
  | action region code inner ih =>
    intro scope start
    by_cases hseq : inner.isSequence = true
    · simp only [lower, keeps, exposes, if_pos hseq]
      exact ih (scope.withAction code) start
    · simp only [lower, keeps, exposes, if_neg hseq]
      exact Template.traces_action _ _ (tables.actionCall code (inner.envAfter scope.slot scope.env))
        (ih (scope.branch scope.slot) (start + 1))
  | ruleRef region name => exact fun scope _ => traces_matcher scope.slot rfl fun _ => Iff.rfl
  | literal region value ignoreCase =>
    exact fun scope _ => traces_matcher scope.slot rfl fun _ => Iff.rfl
  | charClass region cls => exact fun scope _ => traces_matcher scope.slot rfl fun _ => Iff.rfl
  | any region => exact fun scope _ => traces_matcher scope.slot rfl fun _ => Iff.rfl

end Expr

namespace Listing.Function

/-- Some path through the function reads the local before anything is assigned to it. The last
read is that of the result. -/
def Strays (function : Function) (l : Local) : Prop :=
  function.body.Strays .fresh l ∨
    ∃ s, function.body.Path .fresh .done s ∧ l = .result function.result ∧ s.Unset l

/-- Every local is assigned before it is read, on every path. -/
def DefinitelyAssigned (function : Function) : Prop := ∀ l, ¬ function.Strays l

end Listing.Function

/-- The result is always there to be returned, so the printed function strays where its body
does. -/
theorem Session.strays_compileRule {policy : Policy} {session grown : Session} {rule : Rule}
    {function : RuleFunction} (hrule : session.compileRule policy rule = (.ok function, grown))
    {read : Listing.Function} (hread : Listing.function? function.lines.toList = some read)
    (l : Local) :
    read.Strays l ↔ ∃ t, l = .result t ∧ rule.expression.exposes t false 0 {} = true := by
  obtain rfl := Option.some.inj ((Session.function?_compileRule hrule).symm.trans hread)
  obtain ⟨hbody, -⟩ := Session.codeOf_compileRule hrule (.refl grown)
  have htraces := rule.expression.traced grown Scope.root 0
  rw [← hbody] at htraces
  have halike := function.body.alike_plain
  have hresult : function.result = 0 := Session.result_compileRule hrule
  have hreturn : ¬ ∃ s, function.body.plain.Path .fresh .done s ∧ l = .result function.result ∧
      s.Unset l := by
    rintro ⟨s, hpath, rfl, hunset⟩
    obtain ⟨-, -, matched, hmatched, -⟩ := htraces.lands _ _ s ((halike.path _ _ _).mp hpath)
    rw [hresult] at hunset
    exact hmatched.ne_blank hunset
  have hbefore := (halike.strays .fresh l).trans (htraces.strays .fresh l nofun)
  refine (or_iff_left hreturn).trans (hbefore.trans ?_)
  exact exists_congr fun t => and_congr_right fun _ => and_iff_right rfl

/-- The printed function of a rule assigns every local before it is read, exactly when its
expression exposes no slot. A local that some path reads too early is an exposed result slot, and
every exposed result slot is read too early on some path. -/
theorem definite_assignment (policy : Policy) (session : Session) (rule : Rule)
    {function : RuleFunction} {grown : Session}
    (hrule : session.compileRule policy rule = (.ok function, grown)) :
    ∃ read, Listing.function? function.lines.toList = some read ∧
      (read.DefinitelyAssigned ↔ ∀ t, rule.expression.exposes t false 0 {} = false) ∧
      ∀ l, read.Strays l ↔
        ∃ t, l = .result t ∧ rule.expression.exposes t false 0 {} = true := by
  have hread := Session.function?_compileRule hrule
  have hstrays := Session.strays_compileRule hrule hread
  refine ⟨_, hread, ⟨?_, ?_⟩, hstrays⟩
  · intro h t
    cases he : rule.expression.exposes t false 0 {} with
    | false => rfl
    | true => exact absurd ((hstrays (.result t)).mpr ⟨t, rfl, he⟩) (h (.result t))
  · intro h l hl
    obtain ⟨t, -, he⟩ := (hstrays l).mp hl
    rw [h t] at he
    cases he

/-- User code inside a labelled expression, after its first element. -/
theorem definite_assignment_of_inner :
    let rule : Rule := ⟨"R", .labeled none "x" (.sequence none [.any none,
      .predicate none false ⟨"global", "return ok(x);"⟩]), none⟩
    ∃ function grown, ({} : Session).compileRule .strict rule = (.ok function, grown) ∧
      ∃ read, Listing.function? function.lines.toList = some read ∧
        read.DefinitelyAssigned := by
  intro rule
  have hok : (({} : Session).compileRule .strict rule).1.isOk = true := by decide +kernel
  obtain ⟨function, grown, hrule⟩ := Session.eq_ok_of_isOk hok
  obtain ⟨read, hread, hassigned, -⟩ := definite_assignment .strict {} rule hrule
  refine ⟨function, grown, hrule, read, hread, hassigned.mpr ?_⟩
  intro t
  by_cases ht : t = 0
  · subst ht
    rfl
  · have hvalues : (({} : Env).insert "x" 0).values = [0] := rfl
    simp [rule, Expr.exposes, Expr.exposesAll, Expr.keeps, Expr.envAfter, hvalues, ht]

/-- User code that a labelled expression begins with. -/
theorem label_read_before_assigned :
    let rule : Rule := ⟨"R", .labeled none "x"
      (.predicate none false ⟨"global", "return ok(x);"⟩), none⟩
    ∃ function grown, ({} : Session).compileRule .strict rule = (.ok function, grown) ∧
      ∃ read, Listing.function? function.lines.toList = some read ∧
        read.Strays (.result 0) ∧ ¬ read.DefinitelyAssigned := by
  intro rule
  have hok : (({} : Session).compileRule .strict rule).1.isOk = true := by decide +kernel
  obtain ⟨function, grown, hrule⟩ := Session.eq_ok_of_isOk hok
  have hread := Session.function?_compileRule hrule
  have hstrays := (Session.strays_compileRule hrule hread (.result 0)).mpr ⟨0, rfl, rfl⟩
  exact ⟨function, grown, hrule, _, hread, hstrays, fun h => h _ hstrays⟩

end Backtrack
