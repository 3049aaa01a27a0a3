import Backtrack.Proofs.Execution.Attempt

/-!
# Parsing expressions

The plain meaning of an expression: at a position it fails, or matches with a value up to a new
position. Labels matter only in that a predicate is a function of the labels in sight. A parse
bounds the rounds of every repetition; a larger bound gives no other answer.
-/

namespace Backtrack

set_option autoImplicit false

variable {Pos α β : Type}

inductive Parse (Pos α : Type) where
  /-- Cut off inside a repetition. -/
  | cut
  | failed
  | matched (value : α) (stop : Pos)

namespace Parse

def andThen (parse : Parse Pos α) (next : α → Pos → Parse Pos β) : Parse Pos β :=
  match parse with
  | .cut => .cut
  | .failed => .failed
  | .matched value stop => next value stop

def orElse (parse next : Parse Pos α) : Parse Pos α :=
  match parse with
  | .failed => next
  | _ => parse

/-- Matches nothing where there is a match or, negated, a failure. -/
def look (negated : Bool) (start : Pos) : Parse Pos (Value Pos) → Parse Pos (Value Pos)
  | .cut => .cut
  | .failed => if negated then .matched .nil start else .failed
  | .matched .. => if negated then .failed else .matched .nil start

/-- Items until one fails or there are as many as may be, in at most `n` rounds. -/
def gather (most : Option UInt32) (item : Pos → Parse Pos (Value Pos)) :
    Nat → List (Value Pos) → Pos → Parse Pos (List (Value Pos))
  | 0, _, _ => .cut
  | n + 1, items, p =>
    if most.any fun max => max.toNat ≤ items.length then .matched items p
    else
      match item p with
      | .cut => .cut
      | .failed => .matched items p
      | .matched value stop => gather most item n (items ++ [value]) stop

end Parse

def Runtime.parse (rt : Runtime Pos) (matcher : Matcher) (p : Pos) : Parse Pos (Value Pos) :=
  match rt.scan matcher p with
  | none => .failed
  | some (value, stop) => .matched value stop

/-- One more label in sight. -/
def addLabel (labels : List String) (label : String) : List String :=
  if label ∈ labels then labels else labels ++ [label]

/-- The labels in sight after an expression. -/
def Expr.labelsAfter (labels : List String) (e : Expr) : List String :=
  e.exports.foldl addLabel labels

section Parsing

variable (rt : Runtime Pos) (n : Nat)

mutual

def Expr.parse (labels : List String) : Expr → Pos → Parse Pos (Value Pos)
  | .named _ _ inner, p => inner.parse labels p
  | .choice _ alternatives, p => Expr.parseFirst labels alternatives p
  | .sequence _ elements, p =>
    (Expr.parseAll labels elements p).andThen fun values stop =>
      .matched (.wrapped p stop (values.map some)) stop
  | .labeled _ label inner, p => inner.parse (addLabel labels label) p
  | .text _ inner, p => (inner.parse labels p).andThen fun _ stop => .matched (.text p stop) stop
  | .optional _ inner, p => (inner.parse labels p).orElse (.matched .nil p)
  | .repeated _ quantifier inner, p =>
    (Parse.gather quantifier.most (inner.parse labels) n [] p).andThen fun items stop =>
      if items.length < quantifier.least.toNat then .failed
      else .matched (.array (items.map some)) stop
  | .lookahead _ negated inner, p => (inner.parse labels p).look negated p
  | .predicate _ negated code, p =>
    if rt.holds (Session.functionOf code labels) p = negated then .failed else .matched .nil p
  | .action _ _ inner, p => inner.parse labels p
  | .ruleRef _ name, p => rt.parse (.rule name) p
  | .literal _ value ignoreCase, p =>
    rt.parse (.literal (Constants.literal (Bytes.ofString value))
      (Constants.expected .literal (Bytes.ofString (Expr.literalDescription value ignoreCase)))) p
  | .charClass _ cls, p =>
    rt.parse (.charClass (Constants.charClass cls.byteSingles cls.byteRanges)
      (Constants.expected .charClass (Bytes.ofString cls.rawText)) cls.inverted) p
  | .any _, p => rt.parse .anyByte p

def Expr.parseAll (labels : List String) : List Expr → Pos → Parse Pos (List (Value Pos))
  | [], p => .matched [] p
  | first :: rest, p =>
    (first.parse labels p).andThen fun value stop =>
      (Expr.parseAll (first.labelsAfter labels) rest stop).andThen fun values stop =>
        .matched (value :: values) stop

def Expr.parseFirst (labels : List String) : List Expr → Pos → Parse Pos (Value Pos)
  | [], _ => .failed
  | first :: rest, p => (first.parse labels p).orElse (Expr.parseFirst labels rest p)

end

end Parsing

namespace Parse

/-- The second parse goes as far as the first, or farther where the first was cut off. -/
def Below (first second : Parse Pos α) : Prop := first = .cut ∨ first = second

theorem below_refl (parse : Parse Pos α) : Below parse parse := Or.inr rfl

theorem Below.andThen {first second : Parse Pos α} (h : Below first second)
    {next next' : α → Pos → Parse Pos β} (hn : ∀ value stop, Below (next value stop)
      (next' value stop)) : Below (first.andThen next) (second.andThen next') := by
  rcases h with rfl | rfl
  · exact Or.inl rfl
  · cases first with
    | cut => exact Or.inl rfl
    | failed => exact Or.inr rfl
    | matched value stop => exact hn value stop

theorem Below.orElse {first second next next' : Parse Pos α} (h : Below first second)
    (hn : Below next next') : Below (first.orElse next) (second.orElse next') := by
  rcases h with rfl | rfl
  · exact Or.inl rfl
  · cases first with
    | cut => exact Or.inl rfl
    | failed => exact hn
    | matched value stop => exact Or.inr rfl

theorem Below.look {first second : Parse Pos (Value Pos)} (h : Below first second)
    (negated : Bool) (start : Pos) : Below (first.look negated start)
      (second.look negated start) := by
  rcases h with rfl | rfl
  · exact Or.inl rfl
  · exact below_refl _

theorem Below.gather {most : Option UInt32} {item item' : Pos → Parse Pos (Value Pos)}
    (hitem : ∀ p, Below (item p) (item' p)) {n m : Nat} (hle : n ≤ m) (items : List (Value Pos))
    (p : Pos) : Below (Parse.gather most item n items p) (Parse.gather most item' m items p) := by
  induction n generalizing m items p with
  | zero => exact Or.inl rfl
  | succ n ih =>
    obtain ⟨m, rfl⟩ : ∃ k, m = k + 1 := ⟨m - 1, by omega⟩
    simp only [Parse.gather]
    split
    · exact below_refl _
    · rcases hitem p with hcut | heq
      · rw [hcut]
        exact Or.inl rfl
      · rw [← heq]
        cases item p with
        | cut => exact Or.inl rfl
        | failed => exact below_refl _
        | matched value stop => exact ih (Nat.le_of_succ_le_succ hle) (items ++ [value]) stop

end Parse

namespace Expr

variable {rt : Runtime Pos} {n m : Nat}

theorem parseAll_below {elements : List Expr} (he : ∀ e ∈ elements, ∀ labels p,
    (e.parse rt n labels p).Below (e.parse rt m labels p)) (labels : List String) (p : Pos) :
    (parseAll rt n labels elements p).Below (parseAll rt m labels elements p) := by
  induction elements generalizing labels p with
  | nil => exact Parse.below_refl _
  | cons first rest ih =>
    have hrest := ih fun e hmem => he e (List.mem_cons_of_mem first hmem)
    refine (he first List.mem_cons_self labels p).andThen fun value stop => ?_
    exact (hrest _ stop).andThen fun _ _ => Parse.below_refl _

theorem parseFirst_below {alternatives : List Expr} (he : ∀ e ∈ alternatives, ∀ labels p,
    (e.parse rt n labels p).Below (e.parse rt m labels p)) (labels : List String) (p : Pos) :
    (parseFirst rt n labels alternatives p).Below (parseFirst rt m labels alternatives p) := by
  induction alternatives with
  | nil => exact Parse.below_refl _
  | cons first rest ih =>
    have hrest := ih fun e hmem => he e (List.mem_cons_of_mem first hmem)
    exact (he first List.mem_cons_self labels p).orElse hrest

theorem parse_below (rt : Runtime Pos) (hle : n ≤ m) (e : Expr) (labels : List String) (p : Pos) :
    (e.parse rt n labels p).Below (e.parse rt m labels p) := by
  induction e using Expr.induction generalizing labels p with
  | named region name inner ih => exact ih labels p
  | choice region alternatives ih => exact parseFirst_below ih labels p
  | sequence region elements ih =>
    exact (parseAll_below ih labels p).andThen fun _ _ => Parse.below_refl _
  | labeled region label inner ih => exact ih _ p
  | text region inner ih => exact (ih labels p).andThen fun _ _ => Parse.below_refl _
  | optional region inner ih => exact (ih labels p).orElse (Parse.below_refl _)
  | repeated region quantifier inner ih =>
    refine Parse.Below.andThen ?_ fun _ _ => Parse.below_refl _
    exact Parse.Below.gather (ih labels) hle [] p
  | lookahead region negated inner ih => exact (ih labels p).look negated p
  | action region code inner ih => exact ih labels p
  | predicate region negated code => exact Parse.below_refl _
  | ruleRef region name => exact Parse.below_refl _
  | literal region value ignoreCase => exact Parse.below_refl _
  | charClass region cls => exact Parse.below_refl _
  | any region => exact Parse.below_refl _

/-- The expression fails at a position. -/
def Fails (rt : Runtime Pos) (labels : List String) (e : Expr) (p : Pos) : Prop :=
  ∃ n, e.parse rt n labels p = .failed

/-- The expression matches at a position. -/
def Matches (rt : Runtime Pos) (labels : List String) (e : Expr) (p : Pos) (value : Value Pos)
    (stop : Pos) : Prop :=
  ∃ n, e.parse rt n labels p = .matched value stop

/-- Whatever their bounds, two parses that were not cut off are the same. -/
theorem parse_unique (rt : Runtime Pos) (e : Expr) (labels : List String) (p : Pos) {n m : Nat}
    (hn : e.parse rt n labels p ≠ .cut) (hm : e.parse rt m labels p ≠ .cut) :
    e.parse rt n labels p = e.parse rt m labels p := by
  have hleft := parse_below rt (Nat.le_max_left n m) e labels p
  have hright := parse_below rt (Nat.le_max_right n m) e labels p
  exact (hleft.resolve_left hn).trans (hright.resolve_left hm).symm

theorem Matches.not_fails {e : Expr} {labels : List String} {p stop : Pos} {value : Value Pos}
    (h : e.Matches rt labels p value stop) : ¬ e.Fails rt labels p := by
  rintro ⟨m, hm⟩
  obtain ⟨n, hn⟩ := h
  have hne : e.parse rt n labels p ≠ .cut := by
    rw [hn]
    nofun
  have hme : e.parse rt m labels p ≠ .cut := by
    rw [hm]
    nofun
  have hsame := e.parse_unique rt labels p hne hme
  rw [hn, hm] at hsame
  cases hsame

end Expr

/-- A parse forgets of an outcome nothing but the labels, which are the given ones. -/
inductive Outcome.Forgets (labels : List String) : Outcome Pos α → Parse Pos α → Prop where
  | cut : Forgets labels .cut .cut
  | failed : Forgets labels .failed .failed
  | matched {value : α} {stop : Pos} {bindings : Bindings Pos} (h : bindings.keys = labels) :
      Forgets labels (.matched value stop bindings) (.matched value stop)

namespace Outcome.Forgets

variable {labels labels' : List String} {a : Attempt Pos α} {parse : Parse Pos α}

theorem andThen {next : α → Pos → Bindings Pos → Attempt Pos β} {next' : α → Pos → Parse Pos β}
    (h : Forgets labels a.outcome parse)
    (hn : ∀ value stop bindings, bindings.keys = labels →
      Forgets labels' (next value stop bindings).outcome (next' value stop)) :
    Forgets labels' (a.andThen next).outcome (parse.andThen next') := by
  obtain ⟨outcome, events⟩ := a
  cases h with
  | cut => exact .cut
  | failed => exact .failed
  | matched hkeys => exact hn _ _ _ hkeys

theorem orElse {next : Attempt Pos α} {next' : Parse Pos α} (h : Forgets labels a.outcome parse)
    (hn : Forgets labels next.outcome next') :
    Forgets labels (a.orElse next).outcome (parse.orElse next') := by
  obtain ⟨outcome, events⟩ := a
  cases h with
  | cut => exact .cut
  | failed => exact hn
  | matched hkeys => exact .matched hkeys

/-- A report makes no difference. -/
theorem reported (h : Forgets labels a.outcome parse) (events : List (Int × Event (Binding Pos))) :
    Forgets labels (a.orElse ⟨.failed, events⟩).outcome parse := by
  obtain ⟨outcome, _⟩ := a
  cases h with
  | cut => exact .cut
  | failed => exact .failed
  | matched hkeys => exact .matched hkeys

/-- What changes no more than the labels and the log makes no difference. -/
theorem relabeled {next : α → Pos → Bindings Pos → Attempt Pos α}
    (h : Forgets labels a.outcome parse)
    (hn : ∀ value stop bindings,
      Forgets labels' (next value stop bindings).outcome (.matched value stop)) :
    Forgets labels' (a.andThen next).outcome parse := by
  obtain ⟨outcome, events⟩ := a
  cases h with
  | cut => exact .cut
  | failed => exact .failed
  | matched hkeys => exact hn _ _ _

theorem inScope {bindings : Bindings Pos} (h : Forgets labels a.outcome parse) :
    Forgets bindings.keys (a.inScope bindings).outcome parse :=
  h.relabeled fun _ _ _ => .matched rfl

theorem look {a : Attempt Pos (Value Pos)} {parse : Parse Pos (Value Pos)} (negated : Bool)
    (start : Pos) (bindings : Bindings Pos) (h : Forgets labels a.outcome parse) :
    Forgets bindings.keys (a.look negated start bindings).outcome (parse.look negated start) := by
  obtain ⟨outcome, events⟩ := a
  cases h with
  | cut => exact .cut
  | failed =>
    cases negated with
    | false => exact .failed
    | true => exact .matched rfl
  | matched hkeys =>
    cases negated with
    | false => exact .matched rfl
    | true => exact .failed

theorem gather {item : Pos → Attempt Pos (Value Pos)} {item' : Pos → Parse Pos (Value Pos)}
    (hitem : ∀ p, Forgets labels (item p).outcome (item' p)) (most : Option UInt32)
    (bindings : Bindings Pos) (n : Nat) (items : List (Value Pos)) (p : Pos) :
    Forgets bindings.keys (Attempt.gather most bindings item n items p).outcome
      (Parse.gather most item' n items p) := by
  induction n generalizing items p with
  | zero => exact .cut
  | succ n ih =>
    have h := hitem p
    simp only [Attempt.gather, Parse.gather]
    generalize item p = a at h
    generalize item' p = parse at h
    obtain ⟨outcome, events⟩ := a
    split
    · exact .matched rfl
    · cases h with
      | cut => exact .cut
      | failed => exact .matched rfl
      | matched hkeys => exact ih _ _

end Outcome.Forgets

namespace Expr

variable (rt : Runtime Pos) (n : Nat)

theorem keys_release (labels : List String) (bindings : Bindings Pos) :
    (bindings.release labels).keys = bindings.keys := by
  simp [Bindings.release, OrderedMap.keys]

theorem keys_insert_eq (bindings : Bindings Pos) (label : String) (binding : Binding Pos) :
    (bindings.insert label binding).keys = addLabel bindings.keys label :=
  OrderedMap.keys_insert bindings label binding

theorem runtime_forgets (level : Int) (bindings : Bindings Pos) (matcher : Matcher) (p : Pos) :
    (rt.attempt level bindings matcher p).outcome.Forgets bindings.keys (rt.parse matcher p) := by
  simp only [Runtime.attempt, Runtime.parse]
  cases rt.scan matcher p with
  | none => exact .failed
  | some found => exact .matched rfl

/-- What an attempt with the expression comes to is the parse. -/
def Parsed (e : Expr) : Prop :=
  ∀ (level : Int) (bindings : Bindings Pos) (action : Option UserCode) (p : Pos),
    (e.attempt rt n level bindings action p).outcome.Forgets (e.labelsAfter bindings.keys)
      (e.parse rt n bindings.keys p)

theorem attemptAll_forgets {elements : List Expr} (he : ∀ e ∈ elements, e.Parsed rt n)
    (level : Int) (bindings : Bindings Pos) (p : Pos) :
    (attemptAll rt n level bindings elements p).outcome.Forgets
      ((exportsAll elements).foldl addLabel bindings.keys)
      (parseAll rt n bindings.keys elements p) := by
  induction elements generalizing bindings p with
  | nil => exact .matched rfl
  | cons first rest ih =>
    have hrest := ih fun e hmem => he e (List.mem_cons_of_mem first hmem)
    have hfirst := he first List.mem_cons_self level bindings none p
    refine hfirst.andThen fun value stop inside hkeys => ?_
    have h := hrest inside stop
    rw [hkeys] at h
    rw [exportsAll, List.foldl_append]
    exact h.andThen fun _ _ _ hinside => .matched hinside

theorem attemptFirst_forgets {alternatives : List Expr} (he : ∀ e ∈ alternatives, e.Parsed rt n)
    (level : Int) (bindings : Bindings Pos) (p : Pos) :
    (attemptFirst rt n level bindings alternatives p).outcome.Forgets bindings.keys
      (parseFirst rt n bindings.keys alternatives p) := by
  induction alternatives with
  | nil => exact .failed
  | cons first rest ih =>
    have hrest := ih fun e hmem => he e (List.mem_cons_of_mem first hmem)
    exact (he first List.mem_cons_self level bindings none p).inScope.orElse hrest

theorem parsed (e : Expr) : e.Parsed rt n := by
  induction e using Expr.induction with
  | named region name inner ih =>
    intro level bindings action p
    exact (ih (level + 1) bindings action p).reported _
  | choice region alternatives ih =>
    intro level bindings action p
    exact attemptFirst_forgets rt n ih level bindings p
  | sequence region elements ih =>
    intro level bindings action p
    refine (attemptAll_forgets rt n ih level bindings p).andThen fun values stop inside hkeys => ?_
    exact .matched ((keys_release _ inside).trans hkeys)
  | labeled region label inner ih =>
    intro level bindings action p
    have h := ih level (bindings.insert label .pending) none p
    rw [keys_insert_eq] at h
    exact h.relabeled fun _ _ _ => .matched (keys_insert_eq bindings label _)
  | text region inner ih =>
    intro level bindings action p
    exact (ih level bindings none p).andThen fun _ _ _ _ => .matched rfl
  | optional region inner ih =>
    intro level bindings action p
    exact (ih level bindings none p).inScope.orElse (.matched rfl)
  | repeated region quantifier inner ih =>
    intro level bindings action p
    have hitem := Outcome.Forgets.gather (ih level bindings none) quantifier.most bindings n [] p
    refine hitem.andThen fun items stop _ _ => ?_
    split
    · exact .failed
    · exact .matched rfl
  | lookahead region negated inner ih =>
    intro level bindings action p
    exact (ih (level + 1) bindings none p).look negated p bindings
  | predicate region negated code =>
    intro level bindings action p
    simp only [attempt, parse]
    split
    · exact .failed
    · exact .matched rfl
  | action region code inner ih =>
    intro level bindings action p
    rw [attempt, parse]
    split
    · exact (ih level bindings (some code) p).inScope
    · exact (ih level bindings none p).relabeled fun _ _ _ => .matched rfl
  | ruleRef region name =>
    intro level bindings action p
    exact runtime_forgets rt level bindings _ p
  | literal region value ignoreCase =>
    intro level bindings action p
    exact runtime_forgets rt level bindings _ p
  | charClass region cls =>
    intro level bindings action p
    exact runtime_forgets rt level bindings _ p
  | any region =>
    intro level bindings action p
    exact runtime_forgets rt level bindings _ p

end Expr

end Backtrack
