import Backtrack.Proofs.Execution.Evaluation
import Backtrack.Proofs.Listing.Functions

/-!
# User code called by a rule

Every evaluation is found by the parses with a large enough bound, so there is at most one. A run of
the code of a rule that ends is the evaluation of the expression, and calls its user code.
-/

namespace Backtrack

set_option autoImplicit false

variable {Pos : Type}

namespace Expr

open Parse

variable {rt : Runtime Pos}

/-- With a large enough bound, the parse comes to the outcome and calls this user code. -/
def Converges (rt : Runtime Pos) (labels : List String) (e : Expr) (p : Pos)
    (out : Option (Value Pos × Pos)) (calls : List Callee) : Prop :=
  ∃ bound, ∀ n, bound ≤ n → e.parse rt n labels p = ofFound out ∧
    e.userCallsOf (e.visits rt n labels p) = calls

def Convergent (rt : Runtime Pos) (e : Expr) : Prop :=
  ∀ labels p out calls, e.Evaluates rt labels p out calls → e.Converges rt labels p out calls

theorem converges_all {e : Expr} {elements : List Expr}
    (he : ∀ element ∈ elements, element.Convergent rt) {i : Nat}
    (hi : e.children.drop i = elements) {labels : List String} {p : Pos}
    {out : Option (List (Value Pos) × Pos)} {calls : List Callee}
    (h : EvaluatesAll rt labels elements p out calls) :
    ∃ bound, ∀ n, bound ≤ n → parseAll rt n labels elements p = ofFound out ∧
      e.userCallsOf (visitsAll rt n labels i elements p) = calls := by
  induction elements generalizing i labels p out calls with
  | nil =>
    obtain ⟨rfl, rfl⟩ := h
    exact ⟨0, fun _ _ => ⟨rfl, rfl⟩⟩
  | cons first rest ih =>
    obtain ⟨hfirst, hrest⟩ := List.forall_mem_cons.mp he
    obtain ⟨hchild, hnext⟩ := child_of_drop hi
    rcases h with ⟨hnone, rfl⟩ | ⟨value, stop, before, found, after, hsome, hall, rfl, rfl⟩
    · obtain ⟨bound, hbound⟩ := hfirst labels p none calls hnone
      refine ⟨bound, fun n hn => ?_⟩
      obtain ⟨hparse, hcalls⟩ := hbound n hn
      rw [parseAll, visitsAll, userCallsOf_append, userCallsOf_under hchild, hparse, hcalls]
      exact ⟨rfl, List.append_nil _⟩
    · obtain ⟨bound, hbound⟩ := hfirst labels p _ before hsome
      obtain ⟨bound', hbound'⟩ := ih hrest hnext hall
      refine ⟨max bound bound', fun n hn => ?_⟩
      obtain ⟨hparse, hcalls⟩ := hbound n (by omega)
      obtain ⟨hparse', hcalls'⟩ := hbound' n (by omega)
      rw [parseAll, visitsAll, userCallsOf_append, userCallsOf_under hchild, hparse, hcalls]
      change (parseAll rt n _ rest stop).andThen _ = _ ∧
        before ++ e.userCallsOf (visitsAll rt n _ (i + 1) rest stop) = _
      rw [hparse', hcalls']
      refine ⟨?_, rfl⟩
      cases found <;> rfl

theorem converges_first {e : Expr} {alternatives : List Expr}
    (he : ∀ alternative ∈ alternatives, alternative.Convergent rt) {i : Nat}
    (hi : e.children.drop i = alternatives) {labels : List String} {p : Pos}
    {out : Option (Value Pos × Pos)} {calls : List Callee}
    (h : EvaluatesFirst rt labels alternatives p out calls) :
    ∃ bound, ∀ n, bound ≤ n → parseFirst rt n labels alternatives p = ofFound out ∧
      e.userCallsOf (visitsFirst rt n labels i alternatives p) = calls := by
  induction alternatives generalizing i calls with
  | nil =>
    obtain ⟨rfl, rfl⟩ := h
    exact ⟨0, fun _ _ => ⟨rfl, rfl⟩⟩
  | cons first rest ih =>
    obtain ⟨hfirst, hrest⟩ := List.forall_mem_cons.mp he
    obtain ⟨hchild, hnext⟩ := child_of_drop hi
    rcases h with ⟨hmatched, hsome⟩ | ⟨before, after, hnone, hothers, rfl⟩
    · obtain ⟨found, rfl⟩ := Option.isSome_iff_exists.mp hsome
      obtain ⟨bound, hbound⟩ := hfirst labels p _ calls hmatched
      refine ⟨bound, fun n hn => ?_⟩
      obtain ⟨hparse, hcalls⟩ := hbound n hn
      rw [parseFirst, visitsFirst, userCallsOf_append, userCallsOf_under hchild, hparse, hcalls]
      exact ⟨rfl, List.append_nil _⟩
    · obtain ⟨bound, hbound⟩ := hfirst labels p none before hnone
      obtain ⟨bound', hbound'⟩ := ih hrest hnext hothers
      refine ⟨max bound bound', fun n hn => ?_⟩
      obtain ⟨hparse, hcalls⟩ := hbound n (by omega)
      obtain ⟨hparse', hcalls'⟩ := hbound' n (by omega)
      rw [parseFirst, visitsFirst, userCallsOf_append, userCallsOf_under hchild, hparse, hcalls]
      exact ⟨hparse', congrArg (before ++ ·) hcalls'⟩

theorem converges_collects {inner : Expr} (hinner : inner.Convergent rt) {labels : List String}
    {most : Option UInt32} {items : List (Value Pos)} {p : Pos}
    {found : List (Value Pos) × Pos} {calls : List Callee}
    (h : Collects most (inner.Evaluates rt labels) items p found calls) :
    ∃ bound, ∀ n k, bound ≤ n → bound ≤ k →
      Parse.gather most (inner.parse rt n labels) k items p = .matched found.1 found.2 ∧
      inner.userCallsOf (Parse.roundVisits most (inner.parse rt n labels)
        (inner.visits rt n labels) k items.length p) = calls := by
  induction h with
  | full hfull =>
    refine ⟨1, fun n k _ hk => ?_⟩
    obtain ⟨k, rfl⟩ : ∃ j, k = j + 1 := ⟨k - 1, by omega⟩
    rw [Parse.gather, Parse.roundVisits, if_pos hfull, if_pos hfull]
    exact ⟨rfl, rfl⟩
  | last hopen hitem =>
    obtain ⟨bound, hbound⟩ := hinner labels _ none _ hitem
    refine ⟨bound + 1, fun n k hn hk => ?_⟩
    obtain ⟨k, rfl⟩ : ∃ j, k = j + 1 := ⟨k - 1, by omega⟩
    obtain ⟨hparse, hcalls⟩ := hbound n (by omega)
    have hnot := Bool.eq_false_iff.mp hopen
    rw [Parse.gather, Parse.roundVisits, if_neg hnot, if_neg hnot, userCallsOf_append, hparse,
      hcalls]
    exact ⟨rfl, List.append_nil _⟩
  | @more items p stop value found calls rest hopen hitem hrest ih =>
    obtain ⟨bound, hbound⟩ := hinner labels _ _ _ hitem
    obtain ⟨bound', hbound'⟩ := ih
    refine ⟨max bound bound' + 1, fun n k hn hk => ?_⟩
    obtain ⟨k, rfl⟩ : ∃ j, k = j + 1 := ⟨k - 1, by omega⟩
    obtain ⟨hparse, hcalls⟩ := hbound n (by omega)
    obtain ⟨hparse', hcalls'⟩ := hbound' n k (by omega) (by omega)
    have hnot := Bool.eq_false_iff.mp hopen
    rw [List.length_append] at hcalls'
    rw [Parse.gather, Parse.roundVisits, if_neg hnot, if_neg hnot, userCallsOf_append, hparse,
      hcalls]
    exact ⟨hparse', congrArg (calls ++ ·) hcalls'⟩

/-- An evaluation is what every parse with a large enough bound comes to. -/
theorem convergent (rt : Runtime Pos) (e : Expr) : e.Convergent rt := by
  induction e using Expr.induction with
  | named region name inner ih =>
    intro labels p out calls h
    obtain ⟨bound, hbound⟩ := ih labels p out calls h
    refine ⟨bound, fun n hn => ?_⟩
    rw [userCallsOf_named]
    exact hbound n hn
  | choice region alternatives ih =>
    intro labels p out calls h
    have hi : (choice region alternatives).children.drop 0 = alternatives := rfl
    exact converges_first ih hi h
  | sequence region elements ih =>
    intro labels p out calls h
    obtain ⟨found, hall, rfl⟩ := h
    have hi : (sequence region elements).children.drop 0 = elements := rfl
    obtain ⟨bound, hbound⟩ := converges_all ih hi hall
    refine ⟨bound, fun n hn => ?_⟩
    obtain ⟨hparse, hcalls⟩ := hbound n hn
    refine ⟨?_, hcalls⟩
    rw [parse, hparse]
    cases found <;> rfl
  | labeled region label inner ih =>
    intro labels p out calls h
    obtain ⟨bound, hbound⟩ := ih _ p out calls h
    refine ⟨bound, fun n hn => ?_⟩
    rw [visits, userCallsOf_under rfl]
    exact hbound n hn
  | text region inner ih =>
    intro labels p out calls h
    obtain ⟨found, hinner, rfl⟩ := h
    obtain ⟨bound, hbound⟩ := ih labels p found calls hinner
    refine ⟨bound, fun n hn => ?_⟩
    obtain ⟨hparse, hcalls⟩ := hbound n hn
    rw [visits, userCallsOf_under rfl, parse, hparse]
    refine ⟨?_, hcalls⟩
    cases found <;> rfl
  | optional region inner ih =>
    intro labels p out calls h
    obtain ⟨found, hinner, rfl⟩ := h
    obtain ⟨bound, hbound⟩ := ih labels p found calls hinner
    refine ⟨bound, fun n hn => ?_⟩
    obtain ⟨hparse, hcalls⟩ := hbound n hn
    rw [visits, userCallsOf_under rfl, parse, hparse]
    refine ⟨?_, hcalls⟩
    cases found <;> rfl
  | repeated region quantifier inner ih =>
    intro labels p out calls h
    obtain ⟨items, stop, hcollects, rfl⟩ := h
    obtain ⟨bound, hbound⟩ := converges_collects ih hcollects
    refine ⟨bound, fun n hn => ?_⟩
    obtain ⟨hparse, hcalls⟩ := hbound n n hn hn
    rw [visits, userCallsOf_under rfl, parse, hparse]
    refine ⟨?_, hcalls⟩
    change (if items.length < quantifier.least.toNat then _ else _) = _
    split <;> rfl
  | lookahead region negated inner ih =>
    intro labels p out calls h
    obtain ⟨found, hinner, rfl⟩ := h
    obtain ⟨bound, hbound⟩ := ih labels p found calls hinner
    refine ⟨bound, fun n hn => ?_⟩
    obtain ⟨hparse, hcalls⟩ := hbound n hn
    rw [visits, userCallsOf_under rfl, parse, hparse]
    refine ⟨?_, hcalls⟩
    cases found <;> cases negated <;> rfl
  | predicate region negated code =>
    intro labels p out calls h
    obtain ⟨rfl, rfl⟩ := h
    refine ⟨0, fun n _ => ⟨?_, ?_⟩⟩
    · rw [parse]
      split <;> rfl
    · rw [visits, userCallsOf_self]
      rfl
  | action region code inner ih =>
    intro labels p out calls h
    obtain ⟨inside, hinner, rfl⟩ := h
    obtain ⟨bound, hbound⟩ := ih labels p out inside hinner
    refine ⟨bound, fun n hn => ?_⟩
    obtain ⟨hparse, hcalls⟩ := hbound n hn
    rw [visits, userCallsOf_append, userCallsOf_under rfl, parse, hparse, hcalls]
    refine ⟨rfl, ?_⟩
    cases out with
    | none => exact List.append_nil _
    | some found => rfl
  | ruleRef region name =>
    intro labels p out calls h
    obtain ⟨rfl, rfl⟩ := h
    exact ⟨0, fun n _ => ⟨parse_scan rt _ p, rfl⟩⟩
  | literal region value ignoreCase =>
    intro labels p out calls h
    obtain ⟨rfl, rfl⟩ := h
    exact ⟨0, fun n _ => ⟨parse_scan rt _ p, rfl⟩⟩
  | charClass region cls =>
    intro labels p out calls h
    obtain ⟨rfl, rfl⟩ := h
    exact ⟨0, fun n _ => ⟨parse_scan rt _ p, rfl⟩⟩
  | any region =>
    intro labels p out calls h
    obtain ⟨rfl, rfl⟩ := h
    exact ⟨0, fun n _ => ⟨parse_scan rt _ p, rfl⟩⟩

/-- There is at most one evaluation. -/
theorem Evaluates.unique {e : Expr} {labels : List String} {p : Pos}
    {out out' : Option (Value Pos × Pos)} {calls calls' : List Callee}
    (h : e.Evaluates rt labels p out calls) (h' : e.Evaluates rt labels p out' calls') :
    out = out' ∧ calls = calls' := by
  obtain ⟨bound, hbound⟩ := e.convergent rt labels p out calls h
  obtain ⟨bound', hbound'⟩ := e.convergent rt labels p out' calls' h'
  obtain ⟨hparse, hcalls⟩ := hbound (max bound bound') (by omega)
  obtain ⟨hparse', hcalls'⟩ := hbound' (max bound bound') (by omega)
  exact ⟨ofFound_injective (hparse.symm.trans hparse'), hcalls.symm.trans hcalls'⟩

/-- An evaluation is a parse that is not cut off, with the user code of its visits. -/
theorem evaluates_iff {e : Expr} {labels : List String} {p : Pos}
    {out : Option (Value Pos × Pos)} {calls : List Callee} :
    e.Evaluates rt labels p out calls ↔ ∃ n, e.parse rt n labels p = ofFound out ∧
      e.userCallsOf (e.visits rt n labels p) = calls := by
  constructor
  · intro h
    obtain ⟨n, hn⟩ := e.convergent rt labels p out calls h
    exact ⟨n, hn n (Nat.le_refl n)⟩
  · intro h
    obtain ⟨n, hparse, rfl⟩ := h
    exact e.evaluated rt n labels p out hparse

end Expr

theorem Accords.ends {slot start : Nat} {s : State Pos} {ran : Ending × State Pos}
    {out : Option (Value Pos × Pos)} (h : Accords slot start s ran (Parse.ofFound out)) :
    ∃ s', ran = (.done, s') := by
  generalize hparse : Parse.ofFound out = parse at h
  cases h with
  | cut s' => cases out <;> cases hparse
  | failed => exact ⟨_, rfl⟩
  | matched => exact ⟨_, rfl⟩

/-- A run that ends is an evaluation, with the user code it called. -/
theorem Expr.evaluates_of_run {tables : Session} {e : Expr}
    (hw : (e.lower tables Scope.root 0).Within tables) {rt : Runtime Pos} {n : Nat}
    {s s' : State Pos} (hrun : (e.lower tables Scope.root 0).run tables rt n s = (.done, s')) :
    ∃ made, s'.log = s.log ++ made ∧ e.Evaluates rt [] s.current
      ((s'.results 0).map fun value => (value, s'.current)) (Event.userCalls made) := by
  have hfollows := e.simulated tables rt n 0 0 none {} s nofun hw
  obtain ⟨made, hlog, hcalls⟩ := hfollows.calls
  have hvisits := (e.visited rt n).plain s.silent {} s.current
  have huser := Event.userCalls_eq (hcalls.trans hvisits)
  have haccords := Expr.lower_accords hw rt n s
  rw [hrun] at haccords
  have hlog' : s'.log = s.log ++ made := by
    rw [← hlog]
    exact congrArg (fun out => out.2.log) hrun.symm
  refine ⟨made, hlog', ?_⟩
  rw [huser]
  apply e.evaluated rt n
  change e.parse rt n Scope.root.env.keys s.current = Parse.ofFound
    ((s'.results Scope.root.slot).map fun value => (value, s'.current))
  rcases haccords.of_done.2 with ⟨hnone, -, hparse⟩ | ⟨value, hsome, hparse⟩
  · rw [hnone, hparse]
    rfl
  · rw [hsome, hparse]
    rfl

/-- The user code that a run of the printed function calls, call by call, is the user code of the
evaluation of the rule's expression, which comes to the match that is returned; and where there is
an evaluation a run ends. -/
theorem user_calls_are_those_of_evaluation (policy : Policy) (session : Session) (rule : Rule)
    {function : RuleFunction} {grown : Session}
    (hrule : session.compileRule policy rule = (.ok function, grown)) {tables : Session}
    (hext : grown.Extends tables) (rt : Runtime Pos) (s : State Pos) :
    ∃ read, Listing.function? function.lines.toList = some read ∧
      (∀ n s', read.body.run tables rt n s = (.done, s') →
        ∃ made, s'.log = s.log ++ made ∧ ∀ out calls,
          rule.expression.Evaluates rt [] s.current out calls ↔
            out = (s'.results read.result).map (fun value => (value, s'.current)) ∧
            calls = Event.userCalls made) ∧
      ∀ out calls, rule.expression.Evaluates rt [] s.current out calls →
        ∃ n s', read.body.run tables rt n s = (.done, s') := by
  refine ⟨_, Session.function?_compileRule hrule, ?_⟩
  obtain ⟨hbody, hw⟩ := Session.codeOf_compileRule hrule hext
  rw [hbody] at hw
  simp only [Code.run_plain]
  rw [hbody, Session.result_compileRule hrule]
  constructor
  · intro n s' hrun
    obtain ⟨made, hlog, hevaluates⟩ := Expr.evaluates_of_run hw hrun
    refine ⟨made, hlog, fun out calls => ⟨fun h => h.unique hevaluates, ?_⟩⟩
    intro h
    obtain ⟨rfl, rfl⟩ := h
    exact hevaluates
  · intro out calls h
    obtain ⟨n, hparse, -⟩ := Expr.evaluates_iff.mp h
    have haccords := Expr.lower_accords hw rt n s
    change rule.expression.parse rt n Scope.root.env.keys s.current = Parse.ofFound out at hparse
    rw [hparse] at haccords
    obtain ⟨s', hrun⟩ := haccords.ends
    exact ⟨n, s', hrun⟩

/-- The first alternative fails after its inner action and its predicate were called, so that its
outer action is not; the second one matches, and both of its actions are called. -/
theorem user_calls_are_those_of_evaluation_of_nested :
    let ask : UserCode := ⟨"global", "return 1;"⟩
    let inner : UserCode := ⟨"global", "inner();"⟩
    let outer : UserCode := ⟨"global", "outer();"⟩
    let rule : Rule := ⟨"R", .choice none [
      .action none outer
        (.sequence none [.action none inner (.any none), .predicate none true ask]),
      .action none outer (.labeled none "x" (.action none inner (.any none)))], none⟩
    let rt : Runtime Nat := ⟨fun _ p => some (.token p, p + 1), fun _ _ => true⟩
    let s : State Nat := ⟨fun _ => none, fun _ => 0, 0, 0, []⟩
    ∃ function grown, ({} : Session).compileRule .strict rule = (.ok function, grown) ∧
      ∃ read, Listing.function? function.lines.toList = some read ∧
        ∃ n s', read.body.run grown rt n s = (.done, s') ∧
          s'.results read.result = some (.token 0) ∧
          Event.userCalls s'.log = [.action ⟨"global", [], "inner();"⟩,
            .predicate ⟨"global", [], "return 1;"⟩, .action ⟨"global", ["x"], "inner();"⟩,
            .action ⟨"global", ["x"], "outer();"⟩] := by
  intro ask inner outer rule rt s
  have hok : (({} : Session).compileRule .strict rule).1.isOk = true := by decide +kernel
  obtain ⟨function, grown, hrule⟩ := Session.eq_ok_of_isOk hok
  have hevaluates : rule.expression.Evaluates rt [] 0 (some (.token 0, 1)) _ :=
    rule.expression.evaluated rt 0 [] 0 (some (.token 0, 1)) rfl
  obtain ⟨read, hread, hruns, hends⟩ :=
    user_calls_are_those_of_evaluation .strict {} rule hrule (.refl grown) rt s
  obtain ⟨n, s', hrun⟩ := hends _ _ hevaluates
  obtain ⟨made, hlog, hcalls⟩ := hruns n s' hrun
  obtain ⟨hout, huser⟩ := (hcalls _ _).mp hevaluates
  refine ⟨function, grown, hrule, read, hread, n, s', hrun, ?_, ?_⟩
  · obtain ⟨value, hvalue, hpair⟩ := Option.map_eq_some_iff.mp hout.symm
    rw [hvalue]
    exact congrArg (fun pair => some pair.1) hpair
  · rw [hlog]
    exact huser.symm

end Backtrack
