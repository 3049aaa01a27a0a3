import Backtrack.Proofs.Assignment.Paths
import Backtrack.Proofs.Generation.Lowering

/-!
# The paths of each form of code

What matters of the paths through code is which locals they can leave unassigned, with a match and
with a failure, and which they can read before that. For each template this is exactly what it is
for the parts, put together.
-/

namespace Backtrack

set_option autoImplicit false

open Code

/-- How locals go on: those below `slot` are as before, and what was assigned stays assigned. -/
structure Onward (slot : Nat) (s s' : Locals) : Prop where
  below : ∀ i < slot, s'.results i = s.results i
  assigned : ∀ t, s'.results t = .blank → s.results t = .blank
  saved : ∀ i, s.saved i = true → s'.saved i = true

namespace Onward

variable {slot : Nat} {s s₁ s' : Locals}

theorem refl (slot : Nat) (s : Locals) : Onward slot s s :=
  ⟨fun _ _ => rfl, fun _ h => h, fun _ h => h⟩

theorem trans (h : Onward slot s s₁) (h' : Onward slot s₁ s') : Onward slot s s' :=
  ⟨fun i hi => (h'.below i hi).trans (h.below i hi),
    fun t ht => h.assigned t (h'.assigned t ht), fun i hi => h'.saved i (h.saved i hi)⟩

theorem mono {slot' : Nat} (h : Onward slot' s s') (hle : slot ≤ slot') : Onward slot s s' :=
  ⟨fun i hi => h.below i (Nat.lt_of_lt_of_le hi hle), h.assigned, h.saved⟩

theorem assign (h : Onward slot s s') {t : Nat} (ht : slot ≤ t) {cell : Cell}
    (hcell : cell ≠ .blank) : Onward slot s (s'.assign t cell) := by
  refine ⟨?_, ?_, h.saved⟩
  · intro i hi
    exact (s'.assign_of_ne cell (by omega)).trans (h.below i hi)
  · intro i hi
    by_cases he : i = t
    · subst he
      rw [Locals.assign_self] at hi
      exact absurd hi hcell
    · rw [s'.assign_of_ne cell he] at hi
      exact h.assigned i hi

theorem save (h : Onward slot s s') (position : Nat) : Onward slot s (s'.save position) := by
  refine ⟨h.below, h.assigned, ?_⟩
  intro i hi
  by_cases he : i = position
  · subst he
    exact s'.save_self i
  · exact (if_neg he).trans (h.saved i hi)

end Onward

theorem Locals.blank_of_assign {s : Locals} {slot t : Nat} {cell : Cell}
    (h : (s.assign slot cell).results t = .blank) (hcell : cell ≠ .blank) :
    t ≠ slot ∧ s.results t = .blank := by
  by_cases he : t = slot
  · subst he
    rw [assign_self] at h
    exact absurd h hcell
  · exact ⟨he, (s.assign_of_ne cell he).symm.trans h⟩

/-- The paths through code whose result goes to `slot`, with the positions in `needs` saved. A
local that nothing is assigned to can stay so if it is one of `keeps`, by the outcome, and can be
read if it is one of `exposes`. -/
structure Traces (needs : List Nat) (code : Code) (slot : Nat) (keeps : Nat → Bool → Bool)
    (exposes : Nat → Bool) : Prop where
  lands : ∀ s ending s', code.Path s ending s' → ending = .done ∧ Onward slot s s' ∧
    ∃ matched, (s'.results slot).Is matched ∧ ∀ t, s'.results t = .blank → keeps t matched = true
  offers : ∀ s t matched, s.results t = .blank → keeps t matched = true →
    ∃ s', code.Path s .done s' ∧ (s'.results slot).Is matched ∧ s'.results t = .blank
  strays : ∀ s l, (∀ i ∈ needs, s.saved i = true) →
    (code.Strays s l ↔ ∃ t, l = .result t ∧ s.results t = .blank ∧ exposes t = true)

namespace Traces

variable {needs : List Nat} {code inner : Code} {slot start : Nat} {keeps : Nat → Bool → Bool}
  {exposes : Nat → Bool}

theorem congr {other : Code} (h : Traces needs code slot keeps exposes)
    (he : Alike other code) : Traces needs other slot keeps exposes := by
  refine ⟨?_, ?_, ?_⟩
  · intro s ending s' hpath
    exact h.lands s ending s' ((he.path s ending s').mp hpath)
  · intro s t matched hblank hkeeps
    obtain ⟨s', hpath, hrest⟩ := h.offers s t matched hblank hkeeps
    exact ⟨s', (he.path s .done s').mpr hpath, hrest⟩
  · intro s l hneeds
    exact (he.strays s l).trans (h.strays s l hneeds)

/-- The same code, with its locals described in another way. -/
theorem describe {keeps' : Nat → Bool → Bool} {exposes' : Nat → Bool}
    (h : Traces needs code slot keeps exposes) (hkeeps : ∀ t matched, keeps' t matched =
      keeps t matched) (hexposes : ∀ t, exposes' t = exposes t) :
    Traces needs code slot keeps' exposes' := by
  obtain rfl : keeps' = keeps := funext fun t => funext fun matched => hkeeps t matched
  obtain rfl : exposes' = exposes := funext hexposes
  exact h

theorem not_left (h : Traces needs code slot keeps exposes) {s s' : Locals} {ending : Ending}
    (hpath : code.Path s ending s') : ending = .done := (h.lands s ending s' hpath).1

/-- Code that goes on from there. -/
theorem path_append_iff (h : Traces needs code slot keeps exposes) {rest : Code} {s s' : Locals}
    {ending : Ending} : (code ++ rest).Path s ending s' ↔
      ∃ m, code.Path s .done m ∧ rest.Path m ending s' := by
  constructor
  · rintro (hboth | ⟨hne, hpath⟩)
    · exact hboth
    · exact absurd (h.not_left hpath) hne
  · exact Or.inl

theorem after_save (h : Traces [start] code slot keeps exposes) :
    Traces [] (instr (.save start) ++ code) slot keeps exposes := by
  refine ⟨?_, ?_, ?_⟩
  · intro s ending s' hpath
    simp only [path_append, path_instr, Instruction.Path, true_and, exists_eq_left] at hpath
    rcases hpath with hpath | ⟨hne, hdone, -⟩
    · obtain ⟨hdone, honward, hrest⟩ := h.lands _ ending s' hpath
      exact ⟨hdone, ((Onward.refl slot s).save start).trans honward, hrest⟩
    · exact absurd hdone hne
  · intro s t matched hblank hkeeps
    obtain ⟨s', hpath, hrest⟩ := h.offers (s.save start) t matched hblank hkeeps
    exact ⟨s', Or.inl ⟨_, ⟨rfl, rfl⟩, hpath⟩, hrest⟩
  · intro s l _
    have hsaved : ∀ i ∈ [start], (s.save start).saved i = true := by
      intro i hi
      rw [List.mem_singleton.mp hi]
      exact s.save_self start
    rw [← s.results_save start, ← h.strays (s.save start) l hsaved]
    simp

theorem saving (h : Traces [] code slot keeps exposes) (start : Nat) :
    Traces [] (instr (.save start) ++ code) slot keeps exposes :=
  after_save ⟨h.lands, h.offers, fun s l _ => h.strays s l nofun⟩

end Traces

/-- Code that does no more than to assign a result. -/
theorem traces_of_assigns {code : Code} {slot : Nat} {exposes : Nat → Bool}
    (gives : Cell → Prop) (can : Bool → Bool)
    (hpath : ∀ s ending s', code.Path s ending s' ↔
      ending = .done ∧ ∃ cell, gives cell ∧ s' = s.assign slot cell)
    (hgives : ∀ cell, gives cell → ∃ matched, cell.Is matched ∧ can matched = true)
    (hcan : ∀ matched, can matched = true → ∃ cell, gives cell ∧ cell.Is matched)
    (hstrays : ∀ s l, code.Strays s l ↔
      ∃ t, l = .result t ∧ s.results t = .blank ∧ exposes t = true) :
    Traces [] code slot (fun t matched => t != slot && can matched) exposes := by
  refine ⟨?_, ?_, fun s l _ => hstrays s l⟩
  · intro s ending s' h
    obtain ⟨hdone, cell, hcell, rfl⟩ := (hpath s ending s').mp h
    obtain ⟨matched, hmatched, hm⟩ := hgives cell hcell
    refine ⟨hdone, (Onward.refl slot s).assign (Nat.le_refl slot) hmatched.ne_blank, matched, ?_, ?_⟩
    · rwa [Locals.assign_self]
    · intro t ht
      have hne := (Locals.blank_of_assign ht hmatched.ne_blank).1
      simp [hne, hm]
  · intro s t matched hblank hkeeps
    simp only [Bool.and_eq_true, bne_iff_ne, ne_eq] at hkeeps
    obtain ⟨cell, hcell, hmatched⟩ := hcan matched hkeeps.2
    refine ⟨s.assign slot cell, (hpath ..).mpr ⟨rfl, cell, hcell, rfl⟩, ?_, ?_⟩
    · rwa [Locals.assign_self]
    · exact (s.assign_of_ne cell hkeeps.1).trans hblank

theorem traces_failed (slot : Nat) :
    Traces [] (instr (.assign slot .failed)) slot (fun t matched => t != slot && !matched)
      fun _ => false := by
  apply traces_of_assigns (fun cell => cell = .failed) Bool.not
  · intro s ending s'
    simp
  · rintro cell rfl
    exact ⟨false, rfl, rfl⟩
  · intro matched hm
    exact ⟨.failed, rfl, by simpa [Cell.Is] using hm⟩
  · simp

/-- Code whose result is open, a match or a failure. -/
theorem traces_of_open {code : Code} {slot : Nat} {exposes : Nat → Bool}
    (hpath : ∀ s ending s', code.Path s ending s' ↔
      ending = .done ∧ ∃ cell : Cell, (cell = .failed ∨ cell = .value) ∧ s' = s.assign slot cell)
    (hstrays : ∀ s l, code.Strays s l ↔
      ∃ t, l = .result t ∧ s.results t = .blank ∧ exposes t = true) :
    Traces [] code slot (fun t _ => t != slot) exposes := by
  refine (traces_of_assigns _ (fun _ => true) hpath ?_ ?_ hstrays).describe ?_ fun _ => rfl
  · rintro cell (rfl | rfl)
    · exact ⟨false, rfl, rfl⟩
    · exact ⟨true, rfl, rfl⟩
  · rintro (_ | _) _
    · exact ⟨.failed, Or.inl rfl, rfl⟩
    · exact ⟨.value, Or.inr rfl, rfl⟩
  · intro t matched
    exact (Bool.and_true _).symm

/-- A call of a matcher. -/
theorem traces_matcher (slot : Nat) {operand : Operand} (hreads : operand.reads = [])
    (hgives : ∀ cell, operand.Gives cell ↔ cell = .failed ∨ cell = .value) :
    Traces [] (instr (.assign slot operand)) slot (fun t _ => t != slot) fun _ => false := by
  apply traces_of_open
  · intro s ending s'
    simp only [path_instr, Instruction.Path, hgives]
  · intro s l
    simp only [strays_instr, Instruction.Strays, Instruction.reads, hreads, List.not_mem_nil,
      false_and, Bool.false_eq_true, and_false, exists_false]

namespace Locals

/-- The locals after a change of a result, to a match or to a failure. -/
def settle (s : Locals) (slot : Nat) : Option Bool → Locals
  | none => s
  | some true => s.assign slot .value
  | some false => s.assign slot .failed

theorem settle_onward {slot : Nat} {s s' : Locals} (h : Onward slot s s') (change : Option Bool) :
    Onward slot s (s'.settle slot change) := by
  rcases change with _ | _ | _
  · exact h
  · exact h.assign (Nat.le_refl slot) nofun
  · exact h.assign (Nat.le_refl slot) nofun

theorem settle_is {s : Locals} {slot : Nat} {matched : Bool} (h : (s.results slot).Is matched)
    (change : Option Bool) : ((s.settle slot change).results slot).Is (change.getD matched) := by
  rcases change with _ | _ | _
  · exact h
  · simp [settle, Cell.Is]
  · simp [settle, Cell.Is]

theorem settle_blank {s : Locals} {slot t : Nat} {matched : Bool}
    (h : (s.results slot).Is matched) (change : Option Bool) :
    (s.settle slot change).results t = .blank ↔ s.results t = .blank := by
  have hassign : ∀ cell : Cell, cell ≠ .blank →
      ((s.assign slot cell).results t = .blank ↔ s.results t = .blank) := by
    intro cell hcell
    refine ⟨fun ht => (blank_of_assign ht hcell).2, fun ht => ?_⟩
    have hne : t ≠ slot := by
      rintro rfl
      exact h.ne_blank ht
    exact (s.assign_of_ne cell hne).trans ht
  rcases change with _ | _ | _
  · exact Iff.rfl
  · exact hassign .failed nofun
  · exact hassign .value nofun

end Locals

/-- Code that goes on once the result is in `slot`: it calls user code with `args` after a match,
and changes the result by the outcome. -/
structure Finishes (post : Code) (needs : List Nat) (slot : Nat) (args : List Nat)
    (change : Bool → Option Bool) : Prop where
  path : ∀ s matched ending s', (s.results slot).Is matched →
    (post.Path s ending s' ↔ ending = .done ∧ s' = s.settle slot (change matched))
  strays : ∀ s matched l, (s.results slot).Is matched → (∀ i ∈ needs, s.saved i = true) →
    (post.Strays s l ↔ matched = true ∧ ∃ t ∈ args, l = .result t ∧ s.results t = .blank)

theorem Traces.finish {inner post : Code} {needs : List Nat} {slot : Nat}
    {keeps : Nat → Bool → Bool} {exposes : Nat → Bool} {args : List Nat}
    {change : Bool → Option Bool} (h : Traces [] inner slot keeps exposes)
    (hf : Finishes post needs slot args change) :
    Traces needs (inner ++ post) slot
      (fun t matched => [true, false].any fun before =>
        (change before).getD before == matched && keeps t before)
      fun t => exposes t || keeps t true && args.contains t := by
  refine ⟨?_, ?_, ?_⟩
  · intro s ending s' hpath
    obtain ⟨m, hinner, hpost⟩ := h.path_append_iff.mp hpath
    obtain ⟨-, honward, before, hbefore, hkeeps⟩ := h.lands s _ m hinner
    obtain ⟨rfl, rfl⟩ := (hf.path m before ending s' hbefore).mp hpost
    refine ⟨rfl, Locals.settle_onward honward _, _, Locals.settle_is hbefore _, ?_⟩
    intro t ht
    have hkept := hkeeps t ((Locals.settle_blank hbefore _).mp ht)
    cases before <;> simp [hkept]
  · intro s t matched hblank hkeeps
    simp only [List.any_cons, List.any_nil, Bool.or_false, Bool.or_eq_true, Bool.and_eq_true,
      beq_iff_eq] at hkeeps
    obtain ⟨before, hchange, hkept⟩ : ∃ before, (change before).getD before = matched ∧
        keeps t before = true := by
      rcases hkeeps with hkeeps | hkeeps
      · exact ⟨true, hkeeps⟩
      · exact ⟨false, hkeeps⟩
    obtain ⟨m, hinner, hbefore, hm⟩ := h.offers s t before hblank hkept
    refine ⟨m.settle slot (change before), h.path_append_iff.mpr ⟨m, hinner, ?_⟩, ?_, ?_⟩
    · exact (hf.path m before _ _ hbefore).mpr ⟨rfl, rfl⟩
    · exact hchange ▸ Locals.settle_is hbefore _
    · exact (Locals.settle_blank hbefore _).mpr hm
  · intro s l hneeds
    rw [strays_append, h.strays s l nofun]
    constructor
    · rintro (⟨t, rfl, hblank, ht⟩ | ⟨m, hinner, hpost⟩)
      · exact ⟨t, rfl, hblank, by simp [ht]⟩
      · obtain ⟨-, honward, before, hbefore, hkeeps⟩ := h.lands s _ m hinner
        have hsaved : ∀ i ∈ needs, m.saved i = true := fun i hi => honward.saved i (hneeds i hi)
        obtain ⟨rfl, t, hargs, rfl, hblank⟩ := (hf.strays m before l hbefore hsaved).mp hpost
        refine ⟨t, rfl, honward.assigned t hblank, ?_⟩
        simp [hkeeps t hblank, hargs]
    · rintro ⟨t, rfl, hblank, ht⟩
      simp only [Bool.or_eq_true, Bool.and_eq_true, List.contains_iff_mem] at ht
      rcases ht with ht | ⟨hkept, hargs⟩
      · exact Or.inl ⟨t, rfl, hblank, ht⟩
      · obtain ⟨m, hinner, hmatched, hm⟩ := h.offers s t true hblank hkept
        have hsaved : ∀ i ∈ needs, m.saved i = true :=
          fun i hi => (h.lands s _ m hinner).2.1.saved i (hneeds i hi)
        exact Or.inr ⟨m, hinner, (hf.strays m true _ hmatched hsaved).mpr
          ⟨rfl, t, hargs, rfl, hm⟩⟩

namespace Template

variable (slot start : Nat) {inner : Code} {keeps : Nat → Bool → Bool} {exposes : Nat → Bool}

theorem finishes_named (expected : Nat) :
    Finishes (all [instr .unmute, branch (.failed slot) [.assign slot (.failure expected)] []])
      [] slot [] fun matched => if matched then none else some false := by
  refine ⟨?_, ?_⟩
  · intro s matched ending s' h
    cases matched <;> simp [path_branch_failed h, Locals.settle] <;> grind
  · intro s matched l h _
    cases matched <;> simp [strays_branch_failed h]

theorem finishes_text :
    Finishes (all [branch (.matched slot) [.free slot, .assign slot (.matchedText start)] []])
      [start] slot [] fun matched => if matched then some true else none := by
  refine ⟨?_, ?_⟩
  · intro s matched ending s' h
    cases matched with
    | true =>
      simp [path_branch_matched h, Locals.settle]
      grind
    | false => simp [path_branch_matched h, Locals.settle]
  · intro s matched l h hsaved
    have hset := h.ne_blank
    cases matched with
    | true =>
      simp [strays_branch_matched h]
      grind
    | false => simp [strays_branch_matched h]

theorem finishes_action (call : Call) :
    Finishes (all [branch (.matched slot) [.act call] []]) [] slot call.args fun _ => none := by
  refine ⟨?_, ?_⟩
  · intro s matched ending s' h
    cases matched with
    | true =>
      simp [path_branch_matched h, Locals.settle]
      grind
    | false => simp [path_branch_matched h, Locals.settle]
  · intro s matched l h _
    cases matched with
    | true =>
      simp [strays_branch_matched h]
      grind
    | false => simp [strays_branch_matched h]

theorem finishes_optional :
    Finishes (all [guard (.failed slot) (.assign slot .noMatch)]) [] slot []
      fun matched => if matched then none else some true := by
  refine ⟨?_, ?_⟩
  · intro s matched ending s' h
    cases matched <;> simp [path_guard_failed h, Locals.settle]
  · intro s matched l h _
    cases matched <;> simp [strays_guard_failed h, path_guard_failed h]

theorem finishes_lookahead (negated : Bool) :
    Finishes (all [instr .unmute] ++
      if negated then branch (.failed slot) [.rewind start, .assign slot .noMatch]
        [.free slot, .rewind start, .assign slot .failed]
      else branch (.matched slot) [.free slot, .rewind start, .assign slot .noMatch] [])
      [start] slot []
      fun matched => if negated then some !matched else if matched then some true else none := by
  refine ⟨?_, ?_⟩
  · intro s matched ending s' h
    cases negated <;> cases matched <;>
      simp [path_branch_failed h, path_branch_matched h, Locals.settle] <;> grind
  · intro s matched l h hsaved
    have hset := h.ne_blank
    cases negated <;> cases matched <;>
      simp [strays_branch_failed h, strays_branch_matched h] <;> grind

theorem alike_mute (code : Code) : Alike (instr .mute ++ code) code := by
  refine ⟨?_, ?_⟩
  · intro s ending s'
    simp only [path_append, path_instr, Instruction.Path, true_and, exists_eq_left]
    grind
  · intro s l
    simp

theorem traces_named (expected : Nat) (h : Traces [] inner slot keeps exposes) :
    Traces [] (named slot expected inner) slot keeps exposes := by
  have hnamed := (h.finish (finishes_named slot expected)).congr (alike_mute _)
  refine hnamed.describe ?_ ?_
  · intro t matched
    cases matched <;> simp
  · simp

theorem traces_text (h : Traces [] inner slot keeps exposes) :
    Traces [] (text slot start inner) slot keeps exposes := by
  have htext := (h.finish (finishes_text slot start)).after_save
  refine htext.describe ?_ ?_
  · intro t matched
    cases matched <;> simp
  · simp

theorem traces_action (call : Call) (h : Traces [] inner slot keeps exposes) :
    Traces [] (action slot start call inner) slot keeps
      fun t => exposes t || keeps t true && call.args.contains t := by
  have haction := (h.finish (finishes_action slot call)).saving start
  refine haction.describe ?_ ?_
  · intro t matched
    cases matched <;> simp
  · simp

theorem traces_optional (h : Traces [] inner slot keeps exposes) :
    Traces [] (optional slot inner) slot
      (fun t matched => matched && (keeps t true || keeps t false)) exposes := by
  refine (h.finish (finishes_optional slot)).describe ?_ ?_
  · intro t matched
    cases matched <;> simp
  · simp

theorem traces_lookahead (negated : Bool) (h : Traces [] inner slot keeps exposes) :
    Traces [] (lookahead negated slot start inner) slot
      (fun t matched => keeps t (matched ^^ negated)) exposes := by
  have hlook := ((h.finish (finishes_lookahead slot start negated)).congr
    (alike_mute _)).after_save
  refine (hlook.congr ?_).describe ?_ ?_
  · exact (alike_append_assoc ..).trans (Alike.append_left _ ((alike_append_assoc ..).trans
      (Alike.append_left _ (alike_append_assoc ..))))
  · intro t matched
    cases matched <;> cases negated <;> simp
  · simp

theorem traces_predicate (negated : Bool) (call : Call) :
    Traces [] (predicate negated slot call) slot (fun t _ => t != slot)
      fun t => call.args.contains t := by
  apply traces_of_open
  · intro s ending s'
    cases negated <;> simp [predicate, Code.Path] <;> grind
  · intro s l
    cases negated <;> simp [predicate, Code.Strays] <;> grind

end Template

end Backtrack
