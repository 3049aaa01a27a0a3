import Backtrack.Proofs.Execution.Visits

/-!
# Evaluation

An evaluation says what an expression comes to at a position and which user code is called on the
way, in order. There is no bound on the rounds of a repetition: what does not end has no
evaluation. A parse that is not cut off is an evaluation, and the user code it calls is that of the
nodes visited.
-/

namespace Backtrack

set_option autoImplicit false

variable {Pos α β : Type}

def Callee.isUser : Callee → Bool
  | .predicate _ | .action _ => true
  | .matcher _ | .failure _ => false

def Event.userCalls {Arg : Type} (events : List (Int × Event Arg)) : List Callee :=
  (events.map fun event => event.2.callee).filter Callee.isUser

/-- A repetition goes on from the items it has already, until it is full or an item fails. -/
inductive Collects (most : Option UInt32)
    (item : Pos → Option (Value Pos × Pos) → List Callee → Prop) :
    List (Value Pos) → Pos → List (Value Pos) × Pos → List Callee → Prop where
  | full {items : List (Value Pos)} {p : Pos}
      (h : (most.any fun max => max.toNat ≤ items.length) = true) :
      Collects most item items p (items, p) []
  | last {items : List (Value Pos)} {p : Pos} {calls : List Callee}
      (h : (most.any fun max => max.toNat ≤ items.length) = false) (hitem : item p none calls) :
      Collects most item items p (items, p) calls
  | more {items : List (Value Pos)} {p stop : Pos} {value : Value Pos}
      {found : List (Value Pos) × Pos} {calls rest : List Callee}
      (h : (most.any fun max => max.toNat ≤ items.length) = false)
      (hitem : item p (some (value, stop)) calls)
      (hrest : Collects most item (items ++ [value]) stop found rest) :
      Collects most item items p found (calls ++ rest)

section Evaluation

variable (rt : Runtime Pos)

mutual

/-- What an expression comes to, and the user code called on the way. A predicate is called wherever
it is evaluated. An action is called after a match and after all calls inside, and the match stays
as it is. -/
def Expr.Evaluates (labels : List String) :
    Expr → Pos → Option (Value Pos × Pos) → List Callee → Prop
  | .named _ _ inner, p, out, calls => inner.Evaluates labels p out calls
  | .choice _ alternatives, p, out, calls => Expr.EvaluatesFirst labels alternatives p out calls
  | .sequence _ elements, p, out, calls => ∃ found,
    Expr.EvaluatesAll labels elements p found calls ∧
      out = found.map fun (values, stop) => (.wrapped p stop (values.map some), stop)
  | .labeled _ label inner, p, out, calls => inner.Evaluates (addLabel labels label) p out calls
  | .text _ inner, p, out, calls => ∃ found, inner.Evaluates labels p found calls ∧
      out = found.map fun (_, stop) => (.text p stop, stop)
  | .optional _ inner, p, out, calls => ∃ found, inner.Evaluates labels p found calls ∧
      out = found.or (some (.nil, p))
  | .repeated _ quantifier inner, p, out, calls => ∃ items stop,
    Collects quantifier.most (inner.Evaluates labels) [] p (items, stop) calls ∧
      out = if items.length < quantifier.least.toNat then none
        else some (.array (items.map some), stop)
  | .lookahead _ negated inner, p, out, calls => ∃ found, inner.Evaluates labels p found calls ∧
      out = if found.isSome = negated then none else some (.nil, p)
  | .predicate _ negated code, p, out, calls =>
    calls = [.predicate (Session.functionOf code labels)] ∧
      out = if rt.holds (Session.functionOf code labels) p = negated then none
        else some (.nil, p)
  | .action _ code inner, p, out, calls => ∃ inside, inner.Evaluates labels p out inside ∧
      calls = if out.isSome then
        inside ++ [.action (Session.functionOf code (inner.labelsAfter labels))] else inside
  | .ruleRef _ name, p, out, calls => calls = [] ∧ out = rt.scan (.rule name) p
  | .literal _ value ignoreCase, p, out, calls => calls = [] ∧
      out = rt.scan (.literal (Constants.literal (Bytes.ofString value))
        (Constants.expected .literal (Bytes.ofString (literalDescription value ignoreCase)))) p
  | .charClass _ cls, p, out, calls => calls = [] ∧
      out = rt.scan (.charClass (Constants.charClass cls.byteSingles cls.byteRanges)
        (Constants.expected .charClass (Bytes.ofString cls.rawText)) cls.inverted) p
  | .any _, p, out, calls => calls = [] ∧ out = rt.scan .anyByte p

def Expr.EvaluatesAll (labels : List String) :
    List Expr → Pos → Option (List (Value Pos) × Pos) → List Callee → Prop
  | [], p, out, calls => out = some ([], p) ∧ calls = []
  | first :: rest, p, out, calls =>
    first.Evaluates labels p none calls ∧ out = none ∨
    ∃ value stop before found after, first.Evaluates labels p (some (value, stop)) before ∧
      Expr.EvaluatesAll (first.labelsAfter labels) rest stop found after ∧
      out = (found.map fun (values, stop) => (value :: values, stop)) ∧ calls = before ++ after

def Expr.EvaluatesFirst (labels : List String) :
    List Expr → Pos → Option (Value Pos × Pos) → List Callee → Prop
  | [], _, out, calls => out = none ∧ calls = []
  | first :: rest, p, out, calls =>
    first.Evaluates labels p out calls ∧ out.isSome = true ∨
    ∃ before after, first.Evaluates labels p none before ∧
      Expr.EvaluatesFirst labels rest p out after ∧ calls = before ++ after

end

end Evaluation

namespace Expr

variable {e child : Expr} {i : Nat}

/-- The user code of the visits of an expression. -/
def userCallsOf (e : Expr) (visits : List Visit) : List Callee :=
  (visits.filterMap fun visit => (e.node? visit.path).bind (callee? visit.labels)).filter
    Callee.isUser

theorem userCallsOf_append (e : Expr) (first second : List Visit) :
    e.userCallsOf (first ++ second) = e.userCallsOf first ++ e.userCallsOf second := by
  unfold userCallsOf
  rw [List.filterMap_append, List.filter_append]

theorem userCallsOf_under (h : e.children[i]? = some child) (visits : List Visit) :
    e.userCallsOf (visits.map (.under i)) = child.userCallsOf visits := by
  unfold userCallsOf
  rw [List.filterMap_map]
  apply congrArg
  apply List.filterMap_congr
  intro visit _
  simp only [Function.comp_apply, Visit.under, node?, h, Option.bind_some]

theorem userCallsOf_self (e : Expr) (labels : List String) :
    e.userCallsOf [⟨[], labels⟩] = (e.callee? labels).toList.filter Callee.isUser := by
  simp only [userCallsOf, List.filterMap_cons, node?, Option.bind_some, List.filterMap_nil]
  cases e.callee? labels <;> rfl

end Expr

theorem Event.userCalls_eq {Arg : Type} {events : List (Int × Event Arg)} {e : Expr} {level : Int}
    {visits : List Visit} (h : Event.calls events = visits.map (e.call level)) :
    Event.userCalls events = e.userCallsOf visits := by
  have hcallees : events.map (fun event => event.2.callee) =
      visits.filterMap fun visit => (e.node? visit.path).bind (Expr.callee? visit.labels) := by
    have hsnd := congrArg (List.filterMap Prod.snd) h
    rw [Event.calls, List.filterMap_map, List.filterMap_map] at hsnd
    rw [← List.filterMap_eq_map]
    exact hsnd
  rw [Event.userCalls, hcallees]
  rfl

namespace Parse

def ofFound : Option (α × Pos) → Parse Pos α
  | none => .failed
  | some (value, stop) => .matched value stop

theorem ofFound_injective : Function.Injective (ofFound : Option (α × Pos) → Parse Pos α) := by
  intro out out' h
  cases out with
  | none =>
    cases out' with
    | none => rfl
    | some found => cases h
  | some found =>
    cases out' with
    | none => cases h
    | some found' =>
      obtain ⟨hvalue, hstop⟩ := Parse.matched.inj h
      rw [Prod.ext hvalue hstop]

theorem of_andThen {parse : Parse Pos α} {next : α → Pos → Parse Pos β} {out : Option (β × Pos)}
    (h : parse.andThen next = ofFound out) :
    parse = .failed ∧ out = none ∨
      ∃ value stop, parse = .matched value stop ∧ next value stop = ofFound out := by
  cases parse with
  | cut => cases out <;> cases h
  | failed => exact Or.inl ⟨rfl, ofFound_injective h.symm⟩
  | matched value stop => exact Or.inr ⟨value, stop, rfl, h⟩

end Parse

namespace Expr

open Parse

variable {rt : Runtime Pos} {n : Nat}

theorem parse_scan (rt : Runtime Pos) (matcher : Matcher) (p : Pos) :
    rt.parse matcher p = ofFound (rt.scan matcher p) := by
  unfold Runtime.parse
  cases rt.scan matcher p <;> rfl

/-- Every parse that is not cut off is an evaluation, which calls the user code of the visits. -/
def Evaluated (rt : Runtime Pos) (n : Nat) (e : Expr) : Prop :=
  ∀ labels p out, e.parse rt n labels p = ofFound out →
    e.Evaluates rt labels p out (e.userCallsOf (e.visits rt n labels p))

theorem evaluatesAll_of_parseAll {e : Expr} {elements : List Expr}
    (he : ∀ element ∈ elements, element.Evaluated rt n) {i : Nat}
    (hi : e.children.drop i = elements) (labels : List String) (p : Pos)
    {out : Option (List (Value Pos) × Pos)} (h : parseAll rt n labels elements p = ofFound out) :
    EvaluatesAll rt labels elements p out (e.userCallsOf (visitsAll rt n labels i elements p)) := by
  induction elements generalizing i labels p out with
  | nil => exact ⟨ofFound_injective h.symm, rfl⟩
  | cons first rest ih =>
    obtain ⟨hfirst, hrest⟩ := List.forall_mem_cons.mp he
    obtain ⟨hchild, hnext⟩ := child_of_drop hi
    rw [visitsAll, userCallsOf_append, userCallsOf_under hchild]
    rcases of_andThen h with ⟨hfailed, rfl⟩ | ⟨value, stop, hmatched, hmore⟩
    · rw [hfailed]
      refine Or.inl ⟨?_, rfl⟩
      have hnone := hfirst labels p none hfailed
      rw [← List.append_nil (first.userCallsOf _)] at hnone
      exact hnone
    · rw [hmatched]
      have hsome := hfirst labels p (some (value, stop)) hmatched
      rcases of_andThen hmore with ⟨hfailed, rfl⟩ | ⟨values, stop', hvalues, hout⟩
      · have hnone := @ih hrest _ hnext (first.labelsAfter labels) stop none hfailed
        exact Or.inr ⟨value, stop, _, none, _, hsome, hnone, rfl, rfl⟩
      · have hall := @ih hrest _ hnext (first.labelsAfter labels) stop (some (values, stop'))
          hvalues
        refine Or.inr ⟨value, stop, _, some (values, stop'), _, hsome, hall, ?_, rfl⟩
        exact ofFound_injective hout.symm

theorem evaluatesFirst_of_parseFirst {e : Expr} {alternatives : List Expr}
    (he : ∀ alternative ∈ alternatives, alternative.Evaluated rt n) {i : Nat}
    (hi : e.children.drop i = alternatives) (labels : List String) (p : Pos)
    {out : Option (Value Pos × Pos)} (h : parseFirst rt n labels alternatives p = ofFound out) :
    EvaluatesFirst rt labels alternatives p out
      (e.userCallsOf (visitsFirst rt n labels i alternatives p)) := by
  induction alternatives generalizing i with
  | nil => exact ⟨ofFound_injective h.symm, rfl⟩
  | cons first rest ih =>
    obtain ⟨hfirst, hrest⟩ := List.forall_mem_cons.mp he
    obtain ⟨hchild, hnext⟩ := child_of_drop hi
    rw [visitsFirst, userCallsOf_append, userCallsOf_under hchild]
    rw [parseFirst] at h
    cases hparse : first.parse rt n labels p with
    | cut =>
      rw [hparse] at h
      cases out <;> cases h
    | failed =>
      rw [hparse] at h
      exact Or.inr ⟨_, _, hfirst labels p none hparse, ih hrest hnext h, rfl⟩
    | matched value stop =>
      rw [hparse] at h
      obtain rfl : out = some (value, stop) := ofFound_injective h.symm
      refine Or.inl ⟨?_, rfl⟩
      have hsome := hfirst labels p (some (value, stop)) hparse
      rw [← List.append_nil (first.userCallsOf _)] at hsome
      exact hsome

theorem collects_of_gather {inner : Expr} (hinner : inner.Evaluated rt n) (labels : List String)
    (most : Option UInt32) (k : Nat) (items : List (Value Pos)) (p : Pos)
    {out : Option (List (Value Pos) × Pos)}
    (h : Parse.gather most (inner.parse rt n labels) k items p = ofFound out) :
    ∃ found, out = some found ∧ Collects most (inner.Evaluates rt labels) items p found
      (inner.userCallsOf (Parse.roundVisits most (inner.parse rt n labels)
        (inner.visits rt n labels) k items.length p)) := by
  induction k generalizing items p with
  | zero => cases out <;> cases h
  | succ k ih =>
    rw [Parse.gather] at h
    rw [Parse.roundVisits]
    split at h
    · rename_i hfull
      rw [if_pos hfull]
      exact ⟨(items, p), ofFound_injective h.symm, .full hfull⟩
    · rename_i hfull
      rw [if_neg hfull, userCallsOf_append]
      have hopen := Bool.eq_false_iff.mpr hfull
      cases hparse : inner.parse rt n labels p with
      | cut =>
        rw [hparse] at h
        cases out <;> cases h
      | failed =>
        rw [hparse] at h
        refine ⟨(items, p), ofFound_injective h.symm, ?_⟩
        have hnone := hinner labels p none hparse
        rw [← List.append_nil (inner.userCallsOf _)] at hnone
        exact .last hopen hnone
      | matched value stop =>
        rw [hparse] at h
        obtain ⟨found, hout, hrest⟩ := ih (items ++ [value]) stop h
        rw [List.length_append] at hrest
        exact ⟨found, hout, .more hopen (hinner labels p (some (value, stop)) hparse) hrest⟩

/-- A name makes no call of user code itself. -/
theorem userCallsOf_named (region : Option Region) (name : String) (inner : Expr)
    (labels : List String) (p : Pos) :
    (named region name inner).userCallsOf ((named region name inner).visits rt n labels p) =
      inner.userCallsOf (inner.visits rt n labels p) := by
  rw [visits, userCallsOf_append, userCallsOf_under rfl]
  cases inner.parse rt n labels p <;> exact List.append_nil _

theorem evaluated (rt : Runtime Pos) (n : Nat) (e : Expr) : e.Evaluated rt n := by
  induction e using Expr.induction with
  | named region name inner ih =>
    intro labels p out h
    rw [userCallsOf_named]
    exact ih labels p out h
  | choice region alternatives ih =>
    intro labels p out h
    exact evaluatesFirst_of_parseFirst ih rfl labels p h
  | sequence region elements ih =>
    intro labels p out h
    rcases of_andThen h with ⟨hfailed, rfl⟩ | ⟨values, stop, hvalues, hout⟩
    · exact ⟨none, evaluatesAll_of_parseAll ih rfl labels p hfailed, rfl⟩
    · refine ⟨some (values, stop), evaluatesAll_of_parseAll ih rfl labels p hvalues, ?_⟩
      exact ofFound_injective hout.symm
  | labeled region label inner ih =>
    intro labels p out h
    rw [visits, userCallsOf_under rfl]
    exact ih _ p out h
  | text region inner ih =>
    intro labels p out h
    rw [visits, userCallsOf_under rfl]
    rcases of_andThen h with ⟨hfailed, rfl⟩ | ⟨value, stop, hvalue, hout⟩
    · exact ⟨none, ih labels p none hfailed, rfl⟩
    · exact ⟨some (value, stop), ih labels p _ hvalue, ofFound_injective hout.symm⟩
  | optional region inner ih =>
    intro labels p out h
    rw [visits, userCallsOf_under rfl]
    rw [parse] at h
    cases hparse : inner.parse rt n labels p with
    | cut =>
      rw [hparse] at h
      cases out <;> cases h
    | failed =>
      rw [hparse] at h
      exact ⟨none, ih labels p none hparse, ofFound_injective h.symm⟩
    | matched value stop =>
      rw [hparse] at h
      exact ⟨some (value, stop), ih labels p _ hparse, ofFound_injective h.symm⟩
  | repeated region quantifier inner ih =>
    intro labels p out h
    rw [visits, userCallsOf_under rfl]
    rcases of_andThen h with ⟨hfailed, rfl⟩ | ⟨items, stop, hitems, hout⟩
    · obtain ⟨found, hnone, -⟩ := @collects_of_gather _ _ _ _ ih labels _ n [] p none hfailed
      cases hnone
    · obtain ⟨found, hfound, hcollects⟩ :=
        @collects_of_gather _ _ _ _ ih labels _ n [] p (some (items, stop)) hitems
      cases hfound
      refine ⟨items, stop, hcollects, ?_⟩
      split at hout
      · rename_i hshort
        rw [if_pos hshort]
        exact ofFound_injective hout.symm
      · rename_i hshort
        rw [if_neg hshort]
        exact ofFound_injective hout.symm
  | lookahead region negated inner ih =>
    intro labels p out h
    rw [visits, userCallsOf_under rfl]
    rw [parse] at h
    cases hparse : inner.parse rt n labels p with
    | cut =>
      rw [hparse] at h
      cases out <;> cases h
    | failed =>
      rw [hparse] at h
      refine ⟨none, ih labels p none hparse, ?_⟩
      cases negated <;> exact ofFound_injective h.symm
    | matched value stop =>
      rw [hparse] at h
      refine ⟨some (value, stop), ih labels p _ hparse, ?_⟩
      cases negated <;> exact ofFound_injective h.symm
  | predicate region negated code =>
    intro labels p out h
    rw [visits, userCallsOf_self]
    refine ⟨rfl, ?_⟩
    rw [parse] at h
    split at h
    · rename_i hholds
      rw [if_pos hholds]
      exact ofFound_injective h.symm
    · rename_i hholds
      rw [if_neg hholds]
      exact ofFound_injective h.symm
  | action region code inner ih =>
    intro labels p out h
    rw [visits, userCallsOf_append, userCallsOf_under rfl]
    refine ⟨_, ih labels p out h, ?_⟩
    rw [parse] at h
    rw [h]
    cases out with
    | none => exact List.append_nil _
    | some found => rfl
  | ruleRef region name =>
    intro labels p out h
    exact ⟨rfl, ofFound_injective (h.symm.trans (parse_scan rt _ p))⟩
  | literal region value ignoreCase =>
    intro labels p out h
    exact ⟨rfl, ofFound_injective (h.symm.trans (parse_scan rt _ p))⟩
  | charClass region cls =>
    intro labels p out h
    exact ⟨rfl, ofFound_injective (h.symm.trans (parse_scan rt _ p))⟩
  | any region =>
    intro labels p out h
    exact ⟨rfl, ofFound_injective (h.symm.trans (parse_scan rt _ p))⟩

end Expr

end Backtrack
