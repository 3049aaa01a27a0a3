import Backtrack.Proofs.Execution.Parsing
import Backtrack.Proofs.Execution.Following

/-!
# Calls that see no released label

A label is released when the sequence that it is bound in is done. An expression is tidy when none
of its user code has a released label in sight, which can be read off the expression.
-/

namespace Backtrack

set_option autoImplicit false

variable {Pos : Type}

namespace OrderedMap

variable {α β : Type} [DecidableEq α]

/-- Where no key is bound twice, what was bound to a key before is gone. -/
theorem mem_insert_of_nodup {map : OrderedMap α β} (h : map.keys.Nodup) {key : α} {value : β}
    {entry : α × β} (hmem : entry ∈ (map.insert key value).entries) :
    entry = (key, value) ∨ entry ∈ map.entries ∧ entry.1 ≠ key := by
  obtain ⟨entries⟩ := map
  simp only [insert, keys] at h hmem ⊢
  induction entries with
  | nil => exact Or.inl (List.mem_singleton.mp hmem)
  | cons first rest ih =>
    obtain ⟨other, old⟩ := first
    obtain ⟨hfirst, hrest⟩ := List.nodup_cons.mp h
    by_cases hk : other = key
    · rw [insertEntry, if_pos hk] at hmem
      rcases List.mem_cons.mp hmem with rfl | hin
      · exact Or.inl rfl
      · refine Or.inr ⟨List.mem_cons_of_mem _ hin, ?_⟩
        intro he
        have hmap : entry.1 ∈ rest.map Prod.fst := List.mem_map_of_mem hin
        rw [he, ← hk] at hmap
        exact hfirst hmap
    · rw [insertEntry, if_neg hk] at hmem
      rcases List.mem_cons.mp hmem with rfl | hmem
      · exact Or.inr ⟨List.mem_cons_self, hk⟩
      · rcases ih hrest hmem with he | ⟨hin, hne⟩
        · exact Or.inl he
        · exact Or.inr ⟨List.mem_cons_of_mem _ hin, hne⟩

end OrderedMap

def Binding.isReleased : Binding Pos → Bool
  | .released _ => true
  | _ => false

/-- No label is bound twice, and the released labels are among the given ones. -/
structure Bindings.ReleasedIn (labels : List String) (bindings : Bindings Pos) : Prop where
  nodup : bindings.keys.Nodup
  released : ∀ entry ∈ bindings.entries, entry.2.isReleased = true → entry.1 ∈ labels

/-- The call has no argument for a released label. -/
def Event.Settled : Event (Binding Pos) → Prop
  | .scanned _ | .reported _ => True
  | .asked _ bindings | .acted _ bindings => ∀ binding ∈ bindings, binding.isReleased = false

namespace Expr

mutual

/-- The released labels in sight after an expression, of those in sight before it. -/
def releasedAfter (labels : List String) : Expr → List String
  | .named _ _ inner => inner.releasedAfter labels
  | .sequence _ elements => labels ++ exportsAll elements
  | .labeled _ label _ => labels.filter (· ≠ label)
  | .choice .. | .text .. | .optional .. | .repeated .. | .lookahead .. | .predicate ..
  | .action .. | .ruleRef .. | .literal .. | .charClass .. | .any .. => labels

/-- The released labels in sight at the end of a sequence. -/
def releasedAfterAll (labels : List String) : List Expr → List String
  | [] => labels
  | first :: rest => releasedAfterAll (first.releasedAfter labels) rest

end

mutual

/-- No call of user code has a released label in sight. A sequence that is `acting` has an action
to call before it is done. -/
def tidy (acting : Bool) (labels : List String) : Expr → Bool
  | .named _ _ inner => inner.tidy acting labels
  | .choice _ alternatives => tidyEach labels alternatives
  | .sequence _ elements =>
    tidyAll labels elements && (!acting || (releasedAfterAll labels elements).isEmpty)
  | .labeled _ label inner => inner.tidy false (labels.filter (· ≠ label))
  | .text _ inner | .optional _ inner | .repeated _ _ inner | .lookahead _ _ inner =>
    inner.tidy false labels
  | .predicate .. => labels.isEmpty
  | .action _ _ inner =>
    if inner.isSequence then inner.tidy true labels
    else inner.tidy false labels && (inner.releasedAfter labels).isEmpty
  | .ruleRef .. | .literal .. | .charClass .. | .any .. => true

def tidyAll (labels : List String) : List Expr → Bool
  | [] => true
  | first :: rest => first.tidy false labels && tidyAll (first.releasedAfter labels) rest

def tidyEach (labels : List String) : List Expr → Bool
  | [] => true
  | first :: rest => first.tidy false labels && tidyEach labels rest

end

end Expr

namespace Bindings.ReleasedIn

variable {labels : List String} {bindings : Bindings Pos}

theorem insert (h : bindings.ReleasedIn labels) (label : String) {binding : Binding Pos}
    (hb : binding.isReleased = false) :
    ReleasedIn (labels.filter (· ≠ label)) (bindings.insert label binding) := by
  refine ⟨OrderedMap.nodup_keys_insert h.nodup label binding, ?_⟩
  intro entry hmem hreleased
  rcases OrderedMap.mem_insert_of_nodup h.nodup hmem with rfl | ⟨hin, hne⟩
  · rw [hb] at hreleased
    cases hreleased
  · exact List.mem_filter.mpr ⟨h.released entry hin hreleased, by simpa using hne⟩

theorem release (h : bindings.ReleasedIn labels) (more : List String) {all : List String}
    (hall : ∀ label, label ∈ labels ∨ label ∈ more → label ∈ all) :
    ReleasedIn all (bindings.release more) := by
  refine ⟨(Expr.keys_release more bindings).symm ▸ h.nodup, ?_⟩
  intro entry hmem hreleased
  obtain ⟨⟨label, binding⟩, hin, rfl⟩ := List.mem_map.mp hmem
  by_cases hl : label ∈ more
  · exact hall label (Or.inr hl)
  · simp only [if_neg hl] at hreleased
    exact hall label (Or.inl (h.released _ hin hreleased))

theorem settled (h : bindings.ReleasedIn []) :
    ∀ binding ∈ bindings.values, binding.isReleased = false := by
  intro binding hmem
  obtain ⟨entry, hin, rfl⟩ := List.mem_map.mp hmem
  cases hr : entry.2.isReleased with
  | false => rfl
  | true => exact absurd (h.released entry hin hr) List.not_mem_nil

end Bindings.ReleasedIn

/-- Every call is settled, and after a match the released labels are among the given ones. -/
structure Attempt.Clean {α : Type} (labels : List String) (a : Attempt Pos α) : Prop where
  events : ∀ event ∈ a.events, event.2.Settled
  bindings : ∀ value stop bindings, a.outcome = .matched value stop bindings →
    bindings.ReleasedIn labels

namespace Attempt.Clean

variable {α β : Type} {labels labels' : List String} {a : Attempt Pos α}

theorem andThen {next : α → Pos → Bindings Pos → Attempt Pos β} (h : a.Clean labels)
    (hn : ∀ value stop bindings, bindings.ReleasedIn labels →
      (next value stop bindings).Clean labels') : (a.andThen next).Clean labels' := by
  obtain ⟨outcome, events⟩ := a
  cases outcome with
  | cut => exact ⟨h.events, nofun⟩
  | failed => exact ⟨h.events, nofun⟩
  | matched value stop bindings =>
    have hnext := hn value stop bindings (h.bindings value stop bindings rfl)
    refine ⟨?_, hnext.bindings⟩
    intro event hmem
    rcases List.mem_append.mp hmem with hmem | hmem
    · exact h.events event hmem
    · exact hnext.events event hmem

theorem orElse {next : Attempt Pos α} (h : a.Clean labels) (hn : next.Clean labels) :
    (a.orElse next).Clean labels := by
  obtain ⟨outcome, events⟩ := a
  cases outcome with
  | cut => exact h
  | failed =>
    refine ⟨?_, hn.bindings⟩
    intro event hmem
    rcases List.mem_append.mp hmem with hmem | hmem
    · exact h.events event hmem
    · exact hn.events event hmem
  | matched value stop bindings => exact h

theorem matched {bindings : Bindings Pos} (value : α) (stop : Pos)
    (h : bindings.ReleasedIn labels) : (Attempt.matched value stop bindings).Clean labels := by
  refine ⟨fun _ hmem => absurd hmem List.not_mem_nil, ?_⟩
  intro value' stop' bindings' he
  cases he
  exact h

theorem inScope {bindings : Bindings Pos} (h : a.Clean labels)
    (hb : bindings.ReleasedIn labels') : (a.inScope bindings).Clean labels' :=
  h.andThen fun value stop _ _ => matched value stop hb

theorem look {a : Attempt Pos (Value Pos)} {bindings : Bindings Pos} (h : a.Clean labels)
    (hb : bindings.ReleasedIn labels') (negated : Bool) (start : Pos) :
    (a.look negated start bindings).Clean labels' := by
  obtain ⟨outcome, events⟩ := a
  cases outcome with
  | cut => exact ⟨h.events, nofun⟩
  | failed =>
    cases negated with
    | false => exact ⟨h.events, nofun⟩
    | true => exact ⟨h.events, fun _ _ _ he => by cases he; exact hb⟩
  | matched value stop inside =>
    cases negated with
    | false => exact ⟨h.events, fun _ _ _ he => by cases he; exact hb⟩
    | true => exact ⟨h.events, nofun⟩

theorem gather {item : Pos → Attempt Pos (Value Pos)} {bindings : Bindings Pos}
    (hitem : ∀ p, (item p).Clean labels) (hb : bindings.ReleasedIn labels')
    (most : Option UInt32) (n : Nat) (items : List (Value Pos)) (p : Pos) :
    (Attempt.gather most bindings item n items p).Clean labels' := by
  induction n generalizing items p with
  | zero => exact ⟨fun _ hmem => absurd hmem List.not_mem_nil, fun _ _ _ he => by cases he⟩
  | succ n ih =>
    have h := hitem p
    simp only [Attempt.gather]
    generalize item p = a at h
    obtain ⟨outcome, events⟩ := a
    split
    · exact matched items p hb
    · cases outcome with
      | cut => exact ⟨h.events, fun _ _ _ he => by cases he⟩
      | failed => exact ⟨h.events, fun _ _ _ he => by cases he; exact hb⟩
      | matched value stop inside =>
        have hrest := ih (items ++ [value]) stop
        refine ⟨?_, hrest.bindings⟩
        intro event hmem
        rcases List.mem_append.mp hmem with hmem | hmem
        · exact h.events event hmem
        · exact hrest.events event hmem

end Attempt.Clean

namespace Expr

/-- What is released afterwards was released before or is exported. -/
theorem mem_releasedAfter {labels : List String} {e : Expr} {label : String}
    (h : label ∈ e.releasedAfter labels) : label ∈ labels ∨ label ∈ e.exports := by
  induction e using Expr.induction with
  | named region name inner ih => exact ih h
  | sequence region elements ih => exact List.mem_append.mp h
  | labeled region bound inner ih => exact Or.inl (List.mem_filter.mp h).1
  | choice region alternatives ih => exact Or.inl h
  | text region inner ih => exact Or.inl h
  | optional region inner ih => exact Or.inl h
  | repeated region quantifier inner ih => exact Or.inl h
  | lookahead region negated inner ih => exact Or.inl h
  | predicate region negated code => exact Or.inl h
  | action region code inner ih => exact Or.inl h
  | ruleRef region name => exact Or.inl h
  | literal region value ignoreCase => exact Or.inl h
  | charClass region cls => exact Or.inl h
  | any region => exact Or.inl h

theorem mem_releasedAfterAll {labels : List String} {elements : List Expr} {label : String}
    (h : label ∈ releasedAfterAll labels elements) :
    label ∈ labels ∨ label ∈ exportsAll elements := by
  induction elements generalizing labels with
  | nil => exact Or.inl h
  | cons first rest ih =>
    rcases ih h with hfirst | hrest
    · rcases mem_releasedAfter hfirst with hold | hnew
      · exact Or.inl hold
      · exact Or.inr (List.mem_append_left _ hnew)
    · exact Or.inr (List.mem_append_right _ hrest)

variable (rt : Runtime Pos) (n : Nat)

/-- A tidy expression makes settled calls only. -/
def Settles (e : Expr) : Prop :=
  ∀ (level : Int) (bindings : Bindings Pos) (action : Option UserCode) (p : Pos)
    (labels : List String), bindings.ReleasedIn labels → e.tidy action.isSome labels = true →
    (e.attempt rt n level bindings action p).Clean (e.releasedAfter labels)

theorem settled_ofAction {bindings : Bindings Pos} {labels : List String}
    (hb : bindings.ReleasedIn labels) {action : Option UserCode}
    (h : (!action.isSome || labels.isEmpty) = true) (level : Int) :
    ∀ event ∈ Event.ofAction level action bindings, event.2.Settled := by
  intro event hmem
  cases action with
  | none => exact absurd hmem List.not_mem_nil
  | some code =>
    have hempty : labels = [] := by simpa using h
    subst hempty
    rw [List.mem_singleton.mp hmem]
    exact hb.settled

theorem clean_scanned {bindings : Bindings Pos} {labels : List String}
    (hb : bindings.ReleasedIn labels) (level : Int) (matcher : Matcher) (p : Pos) :
    (rt.attempt level bindings matcher p).Clean labels := by
  refine ⟨fun event hmem => by rw [List.mem_singleton.mp hmem]; trivial, ?_⟩
  intro value stop bindings' he
  simp only [Runtime.attempt] at he
  split at he
  · cases he
  · cases he
    exact hb

theorem settles_elements {elements : List Expr} (he : ∀ e ∈ elements, e.Settles rt n)
    (level : Int) (bindings : Bindings Pos) (p : Pos) (labels : List String)
    (hb : bindings.ReleasedIn labels) (ht : tidyAll labels elements = true) :
    (attemptAll rt n level bindings elements p).Clean (releasedAfterAll labels elements) := by
  induction elements generalizing bindings p labels with
  | nil => exact .matched [] p hb
  | cons first rest ih =>
    have hrest := ih fun e hmem => he e (List.mem_cons_of_mem first hmem)
    rw [tidyAll, Bool.and_eq_true] at ht
    have hfirst := he first List.mem_cons_self level bindings none p labels hb ht.1
    refine hfirst.andThen fun value stop inside hinside => ?_
    refine (hrest inside stop _ hinside ht.2).andThen fun values stop' inside' hinside' => ?_
    exact .matched _ stop' hinside'

theorem settles_alternatives {alternatives : List Expr}
    (he : ∀ e ∈ alternatives, e.Settles rt n) (level : Int) (bindings : Bindings Pos) (p : Pos)
    (labels : List String) (hb : bindings.ReleasedIn labels)
    (ht : tidyEach labels alternatives = true) :
    (attemptFirst rt n level bindings alternatives p).Clean labels := by
  induction alternatives with
  | nil => exact ⟨fun _ hmem => absurd hmem List.not_mem_nil, nofun⟩
  | cons first rest ih =>
    rw [tidyEach, Bool.and_eq_true] at ht
    have hrest := ih (fun e hmem => he e (List.mem_cons_of_mem first hmem)) ht.2
    have hfirst := he first List.mem_cons_self level bindings none p labels hb ht.1
    exact (hfirst.inScope hb).orElse hrest

theorem settles (e : Expr) : e.Settles rt n := by
  induction e using Expr.induction with
  | named region name inner ih =>
    intro level bindings action p labels hb ht
    refine (ih (level + 1) bindings action p labels hb ht).orElse ⟨?_, nofun⟩
    intro event hmem
    rw [List.mem_singleton.mp hmem]
    trivial
  | choice region alternatives ih =>
    intro level bindings action p labels hb ht
    exact settles_alternatives rt n ih level bindings p labels hb ht
  | sequence region elements ih =>
    intro level bindings action p labels hb ht
    rw [tidy, Bool.and_eq_true] at ht
    have hall := settles_elements rt n ih level bindings p labels hb ht.1
    refine hall.andThen fun values stop inside hinside => ?_
    refine ⟨settled_ofAction hinside ht.2 level, ?_⟩
    intro value stop' bindings' he
    cases he
    refine hinside.release _ fun label hlabel => List.mem_append.mpr ?_
    rcases hlabel with hold | hnew
    · exact mem_releasedAfterAll hold
    · exact Or.inr hnew
  | labeled region label inner ih =>
    intro level bindings action p labels hb ht
    have hinner := ih level (bindings.insert label .pending) none p _ (hb.insert label rfl) ht
    exact hinner.andThen fun value stop _ _ => .matched value stop (hb.insert label rfl)
  | text region inner ih =>
    intro level bindings action p labels hb ht
    exact (ih level bindings none p labels hb ht).andThen fun _ stop _ _ => .matched _ stop hb
  | optional region inner ih =>
    intro level bindings action p labels hb ht
    exact ((ih level bindings none p labels hb ht).inScope hb).orElse (.matched _ p hb)
  | repeated region quantifier inner ih =>
    intro level bindings action p labels hb ht
    have hitem := fun p => ih level bindings none p labels hb ht
    refine (Attempt.Clean.gather hitem hb quantifier.most n [] p).andThen fun items stop _ _ => ?_
    split
    · exact ⟨fun _ hmem => absurd hmem List.not_mem_nil, nofun⟩
    · exact .matched _ stop hb
  | lookahead region negated inner ih =>
    intro level bindings action p labels hb ht
    exact (ih (level + 1) bindings none p labels hb ht).look hb negated p
  | predicate region negated code =>
    intro level bindings action p labels hb ht
    have hempty : labels = [] := by simpa [tidy] using ht
    subst hempty
    refine ⟨fun event hmem => by rw [List.mem_singleton.mp hmem]; exact hb.settled, ?_⟩
    intro value stop bindings' he
    simp only [attempt] at he
    split at he
    · cases he
    · cases he
      exact hb
  | action region code inner ih =>
    intro level bindings action p labels hb ht
    rw [attempt]
    rw [tidy] at ht
    split at ht
    · rename_i hseq
      rw [if_pos hseq]
      exact (ih level bindings (some code) p labels hb ht).inScope hb
    · rename_i hseq
      rw [if_neg hseq]
      rw [Bool.and_eq_true] at ht
      refine (ih level bindings none p labels hb ht.1).andThen fun value stop inside hinside => ?_
      refine ⟨settled_ofAction hinside (by simpa using ht.2) level, ?_⟩
      intro value' stop' bindings' he
      cases he
      exact hb
  | ruleRef region name =>
    intro level bindings action p labels hb ht
    exact clean_scanned rt hb level _ p
  | literal region value ignoreCase =>
    intro level bindings action p labels hb ht
    exact clean_scanned rt hb level _ p
  | charClass region cls =>
    intro level bindings action p labels hb ht
    exact clean_scanned rt hb level _ p
  | any region =>
    intro level bindings action p labels hb ht
    exact clean_scanned rt hb level _ p

end Expr

end Backtrack
