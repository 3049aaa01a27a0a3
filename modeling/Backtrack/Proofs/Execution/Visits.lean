import Backtrack.Proofs.Labels.Arguments
import Backtrack.Proofs.Listing.Functions

/-!
# Calls and the nodes they belong to

Matchers, rules, reports of failures and user code are called for single nodes of an expression. A
node is found by its path: which child to go to, level by level. The visits of a parse say which
nodes make their call and in which order, and a call is silent as often as its node lies inside a
name or a lookahead.
-/

namespace Backtrack

set_option autoImplicit false

variable {Pos α β : Type}

/-- What is called, whatever the arguments. -/
inductive Callee where
  | matcher (matcher : Matcher)
  | failure (expected : String)
  | predicate (function : UserFunction)
  | action (function : UserFunction)

def Event.callee {Arg : Type} : Event Arg → Callee
  | .scanned matcher => .matcher matcher
  | .reported expected => .failure expected
  | .asked function _ => .predicate function
  | .acted function _ => .action function

namespace Expr

def children : Expr → List Expr
  | .named _ _ inner | .labeled _ _ inner | .text _ inner | .optional _ inner
  | .repeated _ _ inner | .lookahead _ _ inner | .action _ _ inner => [inner]
  | .choice _ parts | .sequence _ parts => parts
  | .predicate .. | .ruleRef .. | .literal .. | .charClass .. | .any _ => []

def node? : Expr → List Nat → Option Expr
  | e, [] => some e
  | e, i :: path => e.children[i]?.bind fun child => child.node? path

/-- Failures inside are silent. -/
def isSilencer : Expr → Bool
  | .named .. | .lookahead .. => true
  | _ => false

/-- How many names and lookaheads the node at a path lies inside of. -/
def silencers : Expr → List Nat → Nat
  | _, [] => 0
  | e, i :: path => e.isSilencer.toNat + e.children[i]?.elim 0 fun child => child.silencers path

/-- What a node calls itself, where these labels are in sight. -/
def callee? (labels : List String) : Expr → Option Callee
  | .named _ name _ => some (.failure (Constants.expected .other (Bytes.ofString name)))
  | .predicate _ _ code => some (.predicate (Session.functionOf code labels))
  | .action _ code _ => some (.action (Session.functionOf code labels))
  | .ruleRef _ name => some (.matcher (.rule name))
  | .literal _ value ignoreCase =>
    some (.matcher (.literal (Constants.literal (Bytes.ofString value))
      (Constants.expected .literal (Bytes.ofString (literalDescription value ignoreCase)))))
  | .charClass _ cls =>
    some (.matcher (.charClass (Constants.charClass cls.byteSingles cls.byteRanges)
      (Constants.expected .charClass (Bytes.ofString cls.rawText)) cls.inverted))
  | .any _ => some (.matcher .anyByte)
  | .choice .. | .sequence .. | .labeled .. | .text .. | .optional .. | .repeated ..
  | .lookahead .. => none

end Expr

/-- A node makes its call, with these labels in sight. -/
structure Visit where
  path : List Nat
  labels : List String

/-- A visit inside the child with this number. -/
def Visit.under (i : Nat) (visit : Visit) : Visit := { visit with path := i :: visit.path }

namespace Parse

def ifMatched (parse : Parse Pos α) (next : α → Pos → List β) : List β :=
  match parse with
  | .matched value stop => next value stop
  | _ => []

def ifFailed (parse : Parse Pos α) (next : List β) : List β :=
  match parse with
  | .failed => next
  | _ => []

theorem map_ifMatched {γ : Type} (parse : Parse Pos α) (next : α → Pos → List β) (f : β → γ) :
    (parse.ifMatched next).map f = parse.ifMatched fun value stop => (next value stop).map f := by
  cases parse <;> rfl

theorem map_ifFailed {γ : Type} (parse : Parse Pos α) (next : List β) (f : β → γ) :
    (parse.ifFailed next).map f = parse.ifFailed (next.map f) := by
  cases parse <;> rfl

/-- The visits of a repetition, which has so many items already. -/
def roundVisits (most : Option UInt32) (item : Pos → Parse Pos (Value Pos))
    (visits : Pos → List Visit) : Nat → Nat → Pos → List Visit
  | 0, _, _ => []
  | n + 1, count, p =>
    if most.any fun max => max.toNat ≤ count then []
    else visits p ++ (item p).ifMatched fun _ stop => roundVisits most item visits n (count + 1) stop

end Parse

section Visits

variable (rt : Runtime Pos) (n : Nat)

mutual

/-- The visits while an expression is parsed. The call of a name comes last and only where what it
names fails, and the call of an action comes last and only after a match. -/
def Expr.visits (labels : List String) : Expr → Pos → List Visit
  | .named _ _ inner, p =>
    (inner.visits labels p).map (.under 0) ++ (inner.parse rt n labels p).ifFailed [⟨[], labels⟩]
  | .choice _ alternatives, p => Expr.visitsFirst labels 0 alternatives p
  | .sequence _ elements, p => Expr.visitsAll labels 0 elements p
  | .labeled _ label inner, p => (inner.visits (addLabel labels label) p).map (.under 0)
  | .text _ inner, p | .optional _ inner, p | .lookahead _ _ inner, p =>
    (inner.visits labels p).map (.under 0)
  | .repeated _ quantifier inner, p =>
    (Parse.roundVisits quantifier.most (inner.parse rt n labels) (inner.visits labels) n 0 p).map
      (.under 0)
  | .action _ _ inner, p =>
    (inner.visits labels p).map (.under 0) ++
      (inner.parse rt n labels p).ifMatched fun _ _ => [⟨[], inner.labelsAfter labels⟩]
  | .predicate .., _ | .ruleRef .., _ | .literal .., _ | .charClass .., _ | .any _, _ =>
    [⟨[], labels⟩]

/-- The visits of elements, of which the first one is the child with number `i`. -/
def Expr.visitsAll (labels : List String) (i : Nat) : List Expr → Pos → List Visit
  | [], _ => []
  | first :: rest, p =>
    (first.visits labels p).map (.under i) ++ (first.parse rt n labels p).ifMatched fun _ stop =>
      Expr.visitsAll (first.labelsAfter labels) (i + 1) rest stop

def Expr.visitsFirst (labels : List String) (i : Nat) : List Expr → Pos → List Visit
  | [], _ => []
  | first :: rest, p =>
    (first.visits labels p).map (.under i) ++ (first.parse rt n labels p).ifFailed
      (Expr.visitsFirst labels (i + 1) rest p)

end

end Visits

/-- The call of a visit, where a call outside all names and lookaheads is at the given level. -/
def Expr.call (e : Expr) (level : Int) (visit : Visit) : Int × Option Callee :=
  (level + e.silencers visit.path, (e.node? visit.path).bind (Expr.callee? visit.labels))

def Event.calls {Arg : Type} (events : List (Int × Event Arg)) : List (Int × Option Callee) :=
  events.map fun call => (call.1, some call.2.callee)

theorem Event.calls_append {Arg : Type} (first second : List (Int × Event Arg)) :
    calls (first ++ second) = calls first ++ calls second := List.map_append

namespace Expr

variable {e child : Expr} {i : Nat}

theorem call_under (h : e.children[i]? = some child) (level : Int) (visit : Visit) :
    e.call level (visit.under i) = child.call (level + e.isSilencer.toNat) visit := by
  have hnode : e.node? (visit.under i).path = child.node? visit.path := by
    simp only [Visit.under, node?, h, Option.bind_some]
  have hsilencers : e.silencers (visit.under i).path =
      e.isSilencer.toNat + child.silencers visit.path := by
    simp only [Visit.under, silencers, h, Option.elim_some]
  unfold call
  rw [hnode, hsilencers, Int.natCast_add, Int.add_assoc]
  rfl

theorem calls_under (h : e.children[i]? = some child) (hquiet : e.isSilencer = false)
    (level : Int) (visits : List Visit) :
    (visits.map (.under i)).map (e.call level) = visits.map (child.call level) := by
  rw [List.map_map]
  apply List.map_congr_left
  intro visit _
  rw [Function.comp_apply, call_under h, hquiet]
  exact congrArg (child.call · visit) (Int.add_zero level)

theorem calls_under_silencer (h : e.children[i]? = some child) (hsilencer : e.isSilencer = true)
    (level : Int) (visits : List Visit) :
    (visits.map (.under i)).map (e.call level) = visits.map (child.call (level + 1)) := by
  rw [List.map_map]
  apply List.map_congr_left
  intro visit _
  rw [Function.comp_apply, call_under h, hsilencer]
  rfl

/-- A node of its own makes its call at the level itself. -/
theorem call_self (e : Expr) (level : Int) (labels : List String) :
    e.call level ⟨[], labels⟩ = (level, e.callee? labels) := by
  have hlevel : level + ((0 : Nat) : Int) = level := Int.add_zero level
  unfold call
  rw [silencers, hlevel]
  rfl

end Expr

namespace Attempt

open Event

variable {labels : List String} {a : Attempt Pos α} {parse : Parse Pos α}

theorem calls_andThen {next : α → Pos → Bindings Pos → Attempt Pos β}
    {rest : α → Pos → List (Int × Option Callee)} (h : a.outcome.Forgets labels parse)
    (hn : ∀ value stop bindings, bindings.keys = labels →
      calls (next value stop bindings).events = rest value stop) :
    calls (a.andThen next).events = calls a.events ++ parse.ifMatched rest := by
  obtain ⟨outcome, events⟩ := a
  cases h with
  | cut => exact (List.append_nil _).symm
  | failed => exact (List.append_nil _).symm
  | matched hkeys =>
    change calls (events ++ (next _ _ _).events) = _
    rw [calls_append, hn _ _ _ hkeys]
    rfl

/-- What makes no calls of its own adds none. -/
theorem calls_andThen_quiet {next : α → Pos → Bindings Pos → Attempt Pos β}
    (hn : ∀ value stop bindings, (next value stop bindings).events = []) :
    calls (a.andThen next).events = calls a.events := by
  obtain ⟨outcome, events⟩ := a
  cases outcome with
  | cut => rfl
  | failed => rfl
  | matched value stop bindings =>
    change calls (events ++ (next value stop bindings).events) = _
    rw [hn, List.append_nil]

theorem calls_inScope (a : Attempt Pos α) (bindings : Bindings Pos) :
    calls (a.inScope bindings).events = calls a.events := calls_andThen_quiet fun _ _ _ => rfl

theorem calls_orElse {next : Attempt Pos α} (h : a.outcome.Forgets labels parse) :
    calls (a.orElse next).events = calls a.events ++ parse.ifFailed (calls next.events) := by
  obtain ⟨outcome, events⟩ := a
  cases h with
  | cut => exact (List.append_nil _).symm
  | failed => exact calls_append events next.events
  | matched => exact (List.append_nil _).symm

theorem calls_orElse_quiet {next : Attempt Pos α} (hn : next.events = []) :
    calls (a.orElse next).events = calls a.events := by
  obtain ⟨outcome, events⟩ := a
  cases outcome with
  | cut => rfl
  | failed =>
    change calls (events ++ next.events) = calls events
    rw [hn, List.append_nil]
  | matched => rfl

theorem calls_look (negated : Bool) (start : Pos) (bindings : Bindings Pos)
    (a : Attempt Pos (Value Pos)) :
    calls (a.look negated start bindings).events = calls a.events := by
  obtain ⟨outcome, events⟩ := a
  cases outcome <;> rfl

theorem calls_gather {item : Pos → Attempt Pos (Value Pos)} {item' : Pos → Parse Pos (Value Pos)}
    {visits : Pos → List Visit} {call : Visit → Int × Option Callee}
    (hitem : ∀ p, (item p).outcome.Forgets labels (item' p))
    (hcalls : ∀ p, calls (item p).events = (visits p).map call) (most : Option UInt32)
    (bindings : Bindings Pos) (n : Nat) (items : List (Value Pos)) (p : Pos) :
    calls (gather most bindings item n items p).events =
      (Parse.roundVisits most item' visits n items.length p).map call := by
  induction n generalizing items p with
  | zero => rfl
  | succ n ih =>
    have h := hitem p
    have hp := hcalls p
    simp only [gather, Parse.roundVisits]
    generalize item p = a at h hp
    generalize item' p = parse at h
    obtain ⟨outcome, events⟩ := a
    split
    · rfl
    · rw [List.map_append, ← hp]
      cases h with
      | cut => exact (List.append_nil _).symm
      | failed => exact (List.append_nil _).symm
      | @matched value stop bindings' hkeys =>
        have hrest := ih (items ++ [value]) stop
        rw [List.length_append] at hrest
        change calls (events ++ _) = _
        rw [calls_append, hrest]
        rfl

end Attempt

namespace Expr

open Event Attempt

variable {rt : Runtime Pos} {n : Nat}

/-- The call of an action that is left to a sequence. -/
def pendingCalls (rt : Runtime Pos) (n : Nat) (e : Expr) (level : Int) (labels : List String)
    (action : Option UserCode) (p : Pos) : List (Int × Option Callee) :=
  (e.parse rt n labels p).ifMatched fun _ _ => action.toList.map fun code =>
    (level, some (.action (Session.functionOf code (e.labelsAfter labels))))

def Visited (rt : Runtime Pos) (n : Nat) (e : Expr) : Prop :=
  ∀ (level : Int) (bindings : Bindings Pos) (action : Option UserCode) (p : Pos),
    action = none ∨ e.isSequence = true →
    calls (e.attempt rt n level bindings action p).events =
      (e.visits rt n bindings.keys p).map (e.call level) ++
        e.pendingCalls rt n level bindings.keys action p

theorem pendingCalls_none (e : Expr) (level : Int) (labels : List String) (p : Pos) :
    e.pendingCalls rt n level labels none p = [] := by
  unfold pendingCalls
  cases e.parse rt n labels p <;> rfl

theorem Visited.plain {e : Expr} (h : e.Visited rt n) (level : Int) (bindings : Bindings Pos)
    (p : Pos) :
    calls (e.attempt rt n level bindings none p).events =
      (e.visits rt n bindings.keys p).map (e.call level) := by
  rw [h level bindings none p (Or.inl rfl), pendingCalls_none, List.append_nil]

theorem visited_of_plain {e : Expr} (hseq : e.isSequence = false)
    (h : ∀ (level : Int) (bindings : Bindings Pos) (p : Pos),
      calls (e.attempt rt n level bindings none p).events =
        (e.visits rt n bindings.keys p).map (e.call level)) : e.Visited rt n := by
  intro level bindings action p ha
  rw [hseq] at ha
  obtain rfl : action = none := ha.resolve_right nofun
  rw [pendingCalls_none, List.append_nil]
  exact h level bindings p

theorem child_of_drop {e first : Expr} {rest : List Expr} {i : Nat}
    (h : e.children.drop i = first :: rest) :
    e.children[i]? = some first ∧ e.children.drop (i + 1) = rest := by
  constructor
  · rw [← List.head?_drop, h]
    rfl
  · rw [← List.tail_drop, h]
    rfl

theorem calls_attemptAll {e : Expr} (hquiet : e.isSilencer = false) {elements : List Expr}
    (he : ∀ element ∈ elements, element.Visited rt n) {i : Nat}
    (hi : e.children.drop i = elements) (level : Int) (bindings : Bindings Pos)
    (p : Pos) :
    calls (attemptAll rt n level bindings elements p).events =
      (visitsAll rt n bindings.keys i elements p).map (e.call level) := by
  induction elements generalizing i bindings p with
  | nil => rfl
  | cons first rest ih =>
    obtain ⟨hfirst, hrest⟩ := List.forall_mem_cons.mp he
    obtain ⟨hchild, hnext⟩ := child_of_drop hi
    rw [attemptAll, visitsAll, List.map_append, calls_under hchild hquiet, Parse.map_ifMatched,
      ← hfirst.plain]
    apply calls_andThen (first.parsed rt n level bindings none p)
    intro value stop inside hkeys
    rw [calls_andThen_quiet fun _ _ _ => rfl, ih hrest hnext, hkeys]

theorem calls_attemptFirst {e : Expr} (hquiet : e.isSilencer = false) {alternatives : List Expr}
    (he : ∀ alternative ∈ alternatives, alternative.Visited rt n) {i : Nat}
    (hi : e.children.drop i = alternatives) (level : Int) (bindings : Bindings Pos)
    (p : Pos) :
    calls (attemptFirst rt n level bindings alternatives p).events =
      (visitsFirst rt n bindings.keys i alternatives p).map (e.call level) := by
  induction alternatives generalizing i with
  | nil => rfl
  | cons first rest ih =>
    obtain ⟨hfirst, hrest⟩ := List.forall_mem_cons.mp he
    obtain ⟨hchild, hnext⟩ := child_of_drop hi
    rw [attemptFirst, visitsFirst, List.map_append, calls_under hchild hquiet, Parse.map_ifFailed,
      ← hfirst.plain, ← ih hrest hnext,
      calls_orElse (first.parsed rt n level bindings none p).inScope, calls_inScope]

/-- An attempt makes the calls of the visits, each at the level of its node. -/
theorem visited (rt : Runtime Pos) (n : Nat) (e : Expr) : e.Visited rt n := by
  induction e using Expr.induction with
  | named region name inner ih =>
    apply visited_of_plain rfl
    intro level bindings p
    rw [attempt, visits, List.map_append, calls_under_silencer rfl rfl, Parse.map_ifFailed,
      ← ih.plain, calls_orElse (inner.parsed rt n (level + 1) bindings none p), List.map_singleton,
      call_self]
    rfl
  | choice region alternatives ih =>
    apply visited_of_plain rfl
    intro level bindings p
    exact calls_attemptFirst rfl ih rfl level bindings p
  | sequence region elements ih =>
    intro level bindings action p _
    have hparsed : (attemptAll rt n level bindings elements p).outcome.Forgets _ _ :=
      attemptAll_forgets rt n (fun e _ => e.parsed rt n) level bindings p
    have hpending : (sequence region elements).pendingCalls rt n level bindings.keys action p =
        (parseAll rt n bindings.keys elements p).ifMatched fun _ _ => action.toList.map fun code =>
          (level, some (.action (Session.functionOf code
            ((exportsAll elements).foldl addLabel bindings.keys)))) := by
      unfold pendingCalls
      rw [parse]
      cases parseAll rt n bindings.keys elements p <;> rfl
    have hinside : calls (attemptAll rt n level bindings elements p).events =
        ((sequence region elements).visits rt n bindings.keys p).map
          ((sequence region elements).call level) :=
      calls_attemptAll rfl ih rfl level bindings p
    rw [attempt, ← hinside, hpending]
    apply calls_andThen hparsed
    intro values stop inside hkeys
    rw [← hkeys]
    cases action <;> rfl
  | labeled region label inner ih =>
    apply visited_of_plain rfl
    intro level bindings p
    rw [attempt, visits, calls_under rfl rfl, ← keys_insert_eq bindings label .pending, ← ih.plain]
    exact calls_andThen_quiet fun _ _ _ => rfl
  | text region inner ih =>
    apply visited_of_plain rfl
    intro level bindings p
    rw [attempt, visits, calls_under rfl rfl, ← ih.plain]
    exact calls_andThen_quiet fun _ _ _ => rfl
  | optional region inner ih =>
    apply visited_of_plain rfl
    intro level bindings p
    rw [attempt, visits, calls_under rfl rfl, ← ih.plain, calls_orElse_quiet rfl, calls_inScope]
  | repeated region quantifier inner ih =>
    apply visited_of_plain rfl
    intro level bindings p
    rw [attempt, visits, calls_under rfl rfl, calls_andThen_quiet]
    · exact calls_gather (inner.parsed rt n level bindings none) (ih.plain level bindings) _ _ n [] p
    · intro items stop _
      split <;> rfl
  | lookahead region negated inner ih =>
    apply visited_of_plain rfl
    intro level bindings p
    rw [attempt, visits, calls_under_silencer rfl rfl, ← ih.plain]
    exact calls_look negated p bindings _
  | predicate region negated code =>
    apply visited_of_plain rfl
    intro level bindings p
    rw [visits, List.map_singleton, call_self]
    rfl
  | action region code inner ih =>
    apply visited_of_plain rfl
    intro level bindings p
    rw [attempt, visits, List.map_append, calls_under rfl rfl, Parse.map_ifMatched]
    simp only [List.map_singleton, call_self]
    split
    · rename_i hseq
      rw [calls_inScope]
      exact ih level bindings (some code) p (Or.inr hseq)
    · rw [← ih.plain]
      apply calls_andThen (inner.parsed rt n level bindings none p)
      intro value stop inside hkeys
      rw [← hkeys]
      rfl
  | ruleRef region name =>
    apply visited_of_plain rfl
    intro level bindings p
    rw [visits, List.map_singleton, call_self]
    rfl
  | literal region value ignoreCase =>
    apply visited_of_plain rfl
    intro level bindings p
    rw [visits, List.map_singleton, call_self]
    rfl
  | charClass region cls =>
    apply visited_of_plain rfl
    intro level bindings p
    rw [visits, List.map_singleton, call_self]
    rfl
  | any region =>
    apply visited_of_plain rfl
    intro level bindings p
    rw [visits, List.map_singleton, call_self]
    rfl

end Expr

theorem Event.Made.callee_eq {passes : Binding Pos → Option (Value Pos) → Prop}
    {event : Event (Binding Pos)} {call : Event (Option (Value Pos))} (h : event.Made passes call) :
    call.callee = event.callee := by
  cases h <;> rfl

theorem Follows.calls {sight : Sight Pos} {labels : List String} {env : Env} {slot start : Nat}
    {s : State Pos} {out : Ending × State Pos} {a : Attempt Pos (Value Pos)}
    (h : Follows sight labels env slot start s out a) :
    ∃ made, out.2.log = s.log ++ made ∧ Event.calls made = Event.calls a.events := by
  obtain ⟨made, hlog, hmade⟩ := h.log
  refine ⟨made, hlog, ?_⟩
  clear hlog
  generalize a.events = events at hmade
  induction hmade with
  | nil => rfl
  | cons hfirst _ ih =>
    obtain ⟨hlevel, hcall⟩ := hfirst
    rw [Event.calls, List.map_cons, hcall.callee_eq, ← hlevel]
    exact congrArg _ ih

/-- Every call of a run of the printed function is the call of a visited node, in the order of the
visits, and is made where failures are silent once more for each name and each lookahead that the
node lies inside of. When the run ends they are as silent as before. -/
theorem silence_is_exact (policy : Policy) (session : Session) (rule : Rule)
    {function : RuleFunction} {grown : Session}
    (hrule : session.compileRule policy rule = (.ok function, grown)) {tables : Session}
    (hext : grown.Extends tables) (rt : Runtime Pos) (n : Nat) (s : State Pos) :
    ∃ read, Listing.function? function.lines.toList = some read ∧
      ∃ ending s' made, read.body.run tables rt n s = (ending, s') ∧ s'.log = s.log ++ made ∧
        made.map (fun call => (call.1, some call.2.callee)) =
          (rule.expression.visits rt n [] s.current).map (fun visit =>
            (s.silent + rule.expression.silencers visit.path,
              (rule.expression.node? visit.path).bind (Expr.callee? visit.labels))) ∧
        ending ≠ .left ∧ (ending = .done → s'.silent = s.silent) := by
  refine ⟨_, Session.function?_compileRule hrule, ?_⟩
  obtain ⟨hbody, hw⟩ := Session.codeOf_compileRule hrule hext
  rw [hbody] at hw
  rw [Code.run_plain, hbody]
  have hfollows := rule.expression.simulated tables rt n 0 0 none {} s nofun hw
  have haccords := Expr.lower_accords hw rt n s
  obtain ⟨made, hlog, hcalls⟩ := hfollows.calls
  have hvisits := (rule.expression.visited rt n).plain s.silent {} s.current
  refine ⟨_, _, made, rfl, hlog, hcalls.trans hvisits, haccords.ne_left, ?_⟩
  intro hdone
  generalize (rule.expression.lower tables Scope.root 0).run tables rt n s = out at haccords hdone ⊢
  obtain ⟨ending, s'⟩ := out
  cases hdone
  exact haccords.of_done.1.silent

/-- A name around a lookahead that must not match, but does. Its own failure is not silent. -/
theorem silence_is_exact_of_nested :
    let rule : Rule := ⟨"R", .named none "end" (.lookahead none true (.sequence none [.any none,
      .predicate none false ⟨"global", "return 1;"⟩])), none⟩
    let rt : Runtime Nat := ⟨fun _ p => some (.token p, p + 1), fun _ _ => true⟩
    let s : State Nat := ⟨fun _ => none, fun _ => 0, 0, 5, []⟩
    ∃ function grown, ({} : Session).compileRule .strict rule = (.ok function, grown) ∧
      ∃ read, Listing.function? function.lines.toList = some read ∧
        ∃ ending s' made, read.body.run grown rt 0 s = (ending, s') ∧ s'.log = made ∧
          made.map (fun call => (call.1, some call.2.callee)) =
            [(7, some (.matcher .anyByte)), (7, some (.predicate ⟨"global", [], "return 1;"⟩)),
              (5, some (.failure (Constants.expected .other (Bytes.ofString "end"))))] ∧
          ending ≠ .left ∧ (ending = .done → s'.silent = 5) := by
  intro rule rt s
  have hok : (({} : Session).compileRule .strict rule).1.isOk = true := by decide +kernel
  obtain ⟨function, grown, hrule⟩ := Session.eq_ok_of_isOk hok
  exact ⟨function, grown, hrule, silence_is_exact .strict {} rule hrule (.refl grown) rt 0 s⟩

end Backtrack
