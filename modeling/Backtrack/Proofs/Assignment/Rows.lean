import Backtrack.Proofs.Assignment.Traces

/-!
# The paths of repetitions, sequences and choices

A repetition goes round as often as its item can match, within its bounds. A sequence goes on while
its elements match, and a choice while its alternatives fail.
-/

namespace Backtrack

set_option autoImplicit false

open Code

/-- Some number of rounds ends with this outcome and leaves a local unassigned: `again` says that
a round can leave it so and go on, `stop` that a failing item can. -/
def Quantifier.keeps (quantifier : Quantifier) (again stop matched : Bool) : Bool :=
  let least := quantifier.least.toNat
  match quantifier.most with
  | none => stop && if matched then least == 0 || again else decide (0 < least)
  | some max =>
    if matched then
      decide (least ≤ max.toNat) && (max.toNat == 0 || again) ||
        decide (least < max.toNat) && stop && (least == 0 || again)
    else
      decide (max.toNat < least) && (max.toNat == 0 || again) ||
        decide (0 < max.toNat) && decide (0 < least) && stop

namespace Template

/-- A repetition can end with `count` items and leave a local unassigned. -/
structure StopsAt (most : Option UInt32) (again stop : Bool) (count : Nat) : Prop where
  again : count = 0 ∨ again = true
  room : ∀ j < count, isFull most j = false
  stop : isFull most count = true ∨ stop = true ∧ isFull most count = false

theorem stopsAt_none_iff (again stop : Bool) (count : Nat) :
    StopsAt none again stop count ↔ (count = 0 ∨ again = true) ∧ stop = true := by
  constructor
  · intro h
    exact ⟨h.again, by simpa [isFull] using h.stop⟩
  · rintro ⟨hagain, hstop⟩
    exact ⟨hagain, fun _ _ => rfl, Or.inr ⟨hstop, rfl⟩⟩

theorem stopsAt_some_iff (max : UInt32) (again stop : Bool) (count : Nat) :
    StopsAt (some max) again stop count ↔ (count = 0 ∨ again = true) ∧
      (count = max.toNat ∨ count < max.toNat ∧ stop = true) := by
  constructor
  · intro h
    refine ⟨h.again, ?_⟩
    have hroom : ∀ j < count, j < max.toNat := by
      intro j hj
      simpa [isFull] using h.room j hj
    have hle : count ≤ max.toNat := by
      cases count with
      | zero => exact Nat.zero_le _
      | succ count => exact hroom count (Nat.lt_succ_self count)
    rcases h.stop with hfull | ⟨hstop, hopen⟩
    · have hge : max.toNat ≤ count := by simpa [isFull] using hfull
      omega
    · have hlt : count < max.toNat := by simpa [isFull] using hopen
      exact Or.inr ⟨hlt, hstop⟩
  · rintro ⟨hagain, hcount⟩
    refine ⟨hagain, ?_, ?_⟩
    · intro j hj
      have hlt : j < max.toNat := by omega
      simpa [isFull] using hlt
    · rcases hcount with rfl | ⟨hlt, hstop⟩
      · exact Or.inl (by simp [isFull])
      · exact Or.inr ⟨hstop, by simpa [isFull] using hlt⟩

theorem keeps_iff (quantifier : Quantifier) (again stop matched : Bool) :
    quantifier.keeps again stop matched = true ↔ ∃ count,
      StopsAt quantifier.most again stop count ∧
        matched = decide (quantifier.least.toNat ≤ count) := by
  simp only [Quantifier.keeps]
  generalize quantifier.least.toNat = least
  cases quantifier.most with
  | none =>
    simp only [stopsAt_none_iff]
    constructor
    · intro h
      refine ⟨if matched then least else 0, ?_⟩
      cases matched <;> grind
    · rintro ⟨count, hstops, rfl⟩
      grind
  | some max =>
    simp only [stopsAt_some_iff]
    generalize max.toNat = max
    constructor
    · -- The fewest rounds that do, unless it stops for being full.
      intro h
      cases matched with
      | true =>
        simp only [if_true, Bool.or_eq_true, Bool.and_eq_true, decide_eq_true_eq, beq_iff_eq] at h
        rcases h with ⟨hle, hagain⟩ | ⟨⟨hlt, hstop⟩, hagain⟩
        · exact ⟨max, ⟨hagain, Or.inl rfl⟩, by simp [hle]⟩
        · exact ⟨least, ⟨hagain, Or.inr ⟨hlt, hstop⟩⟩, by simp⟩
      | false =>
        simp only [Bool.false_eq_true, if_false, Bool.or_eq_true, Bool.and_eq_true,
          decide_eq_true_eq, beq_iff_eq] at h
        rcases h with ⟨hlt, hagain⟩ | ⟨⟨hmax, hleast⟩, hstop⟩
        · exact ⟨max, ⟨hagain, Or.inl rfl⟩, by simp [hlt]⟩
        · exact ⟨0, ⟨Or.inl rfl, Or.inr ⟨hmax, hstop⟩⟩, by simp; omega⟩
    · rintro ⟨count, hstops, rfl⟩
      by_cases hle : least ≤ count
      · simp only [hle, decide_true, if_true, Bool.or_eq_true, Bool.and_eq_true,
          decide_eq_true_eq, beq_iff_eq]
        grind
      · simp only [hle, decide_false, Bool.false_eq_true, if_false, Bool.or_eq_true,
          Bool.and_eq_true, decide_eq_true_eq, beq_iff_eq]
        grind

section Round

variable {most : Option UInt32} {slot count : Nat} {inner : Code} {keeps : Nat → Bool → Bool}
  {exposes : Nat → Bool} {s s' : Locals}

theorem path_full (hs : s.results slot = .array count) (ending : Ending) :
    (match most with
      | some max => guard (.full slot max) .leave
      | none => skip).Path s ending s' ↔
      s' = s ∧ ending = if isFull most count then .left else .done := by
  cases most with
  | none => simp [isFull, and_comm]
  | some max =>
    by_cases hf : max.toNat ≤ count <;>
      simp [isFull, Code.Path, hs, Cell.Counts, hf, and_comm]

theorem strays_full (hs : s.results slot = .array count) (l : Local) :
    ¬ (match most with
      | some max => guard (.full slot max) .leave
      | none => skip).Strays s l := by
  cases most with
  | none => exact id
  | some max =>
    simp [Code.Strays]
    rintro rfl
    simp [hs]

variable (h : Traces [] inner (slot + 1) keeps exposes)
include h

theorem path_round (hs : s.results slot = .array count) (ending : Ending) :
    (round most slot inner).Path s ending s' ↔
      if isFull most count then ending = .left ∧ s' = s
      else ∃ m matched, inner.Path s .done m ∧ (m.results (slot + 1)).Is matched ∧
        if matched then ending = .done ∧ s' = m.assign slot (.array (count + 1))
        else ending = .left ∧ s' = m := by
  have hafter : ∀ m matched, inner.Path s .done m → (m.results (slot + 1)).Is matched →
      ((all [guard (.failed (slot + 1)) .leave, instr (.append slot (slot + 1))]).Path m ending s' ↔
        if matched then ending = .done ∧ s' = m.assign slot (.array (count + 1))
        else ending = .left ∧ s' = m) := by
    intro m matched hm hmatched
    have harray : m.results slot = .array count :=
      ((h.lands s _ m hm).2.1.below slot (by omega)).trans hs
    cases matched with
    | true =>
      simp [path_guard_failed hmatched, harray, Cell.push]
      grind
    | false =>
      simp [path_guard_failed hmatched]
      grind
  have hpath : (round most slot inner).Path s ending s' ↔
      if isFull most count then ending = .left ∧ s' = s
      else ∃ m, inner.Path s .done m ∧ (all [guard (.failed (slot + 1)) .leave,
        instr (.append slot (slot + 1))]).Path m ending s' := by
    rw [← h.path_append_iff]
    refine (or_congr (exists_congr fun m => and_congr_left' (path_full hs .done))
      (and_congr_right' (path_full hs ending))).trans ?_
    cases isFull most count <;> simp <;> grind
  rw [hpath]
  cases isFull most count with
  | true => rfl
  | false =>
    simp only [Bool.false_eq_true, if_false]
    constructor
    · rintro ⟨m, hm, hrest⟩
      obtain ⟨-, -, matched, hmatched, -⟩ := h.lands s _ m hm
      exact ⟨m, matched, hm, hmatched, (hafter m matched hm hmatched).mp hrest⟩
    · rintro ⟨m, matched, hm, hmatched, hrest⟩
      exact ⟨m, hm, (hafter m matched hm hmatched).mpr hrest⟩

theorem strays_round (hs : s.results slot = .array count) (l : Local) :
    (round most slot inner).Strays s l ↔ isFull most count = false ∧ inner.Strays s l := by
  have hafter : ∀ m, inner.Path s .done m →
      ¬ (all [guard (.failed (slot + 1)) .leave, instr (.append slot (slot + 1))]).Strays m l := by
    intro m hm
    obtain ⟨-, honward, matched, hmatched, -⟩ := h.lands s _ m hm
    have harray : m.results slot = .array count := (honward.below slot (by omega)).trans hs
    have hset := hmatched.ne_blank
    cases matched with
    | true =>
      simp [strays_guard_failed hmatched, path_guard_failed hmatched]
      grind
    | false => simp [strays_guard_failed hmatched, path_guard_failed hmatched]
  have hstrays : (round most slot inner).Strays s l ↔ isFull most count = false ∧
      (inner.Strays s l ∨ ∃ m, inner.Path s .done m ∧ (all [guard (.failed (slot + 1)) .leave,
        instr (.append slot (slot + 1))]).Strays m l) := by
    refine (or_congr (iff_false_intro (strays_full hs l))
      (exists_congr fun m => and_congr_left' (path_full hs .done))).trans ?_
    cases isFull most count <;> simp
  rw [hstrays]
  grind

/-- What rounds of a repetition come to: some more items, each of which left what is unassigned. -/
theorem rounds_lands (hs : s.results slot = .array count)
    (hrounds : Rounds (round most slot inner).Path s s') :
    ∃ more, s'.results slot = .array (count + more) ∧ Onward slot s s' ∧
      (∀ j < more, isFull most (count + j) = false) ∧
      ∀ t, s'.results t = .blank → more = 0 ∨ keeps t true = true := by
  induction hrounds with
  | refl => exact ⟨0, hs, .refl slot s, nofun, fun _ _ => Or.inl rfl⟩
  | @tail m s' _ hround ih =>
    obtain ⟨more, harray, honward, hroom, -⟩ := ih
    rw [path_round h harray] at hround
    cases hfull : isFull most (count + more) with
    | true =>
      rw [if_pos hfull] at hround
      cases hround.1
    | false =>
      rw [if_neg (by simp [hfull])] at hround
      obtain ⟨m', matched, hinner, hmatched, hrest⟩ := hround
      obtain ⟨-, honward', matched', hmatched', hkeeps⟩ := h.lands m _ m' hinner
      obtain rfl := hmatched.unique hmatched'
      cases matched with
      | false => cases hrest.1
      | true =>
        obtain ⟨-, rfl⟩ := hrest
        refine ⟨more + 1, Locals.assign_self .., ?_, ?_, ?_⟩
        · exact (honward.trans (honward'.mono (Nat.le_succ slot))).assign (Nat.le_refl slot) nofun
        · intro j hj
          rcases Nat.lt_or_ge j more with hlt | hge
          · exact hroom j hlt
          · rw [show j = more by omega]
            exact hfull
        · intro t ht
          exact Or.inr (hkeeps t (Locals.blank_of_assign ht nofun).2)

theorem rounds_offers {t more : Nat} (hs : s.results slot = .array count)
    (hblank : s.results t = .blank) (hkeeps : more = 0 ∨ keeps t true = true)
    (hroom : ∀ j < more, isFull most (count + j) = false) :
    ∃ m, Rounds (round most slot inner).Path s m ∧ m.results slot = .array (count + more) ∧
      m.results t = .blank := by
  induction more with
  | zero => exact ⟨s, .refl, hs, hblank⟩
  | succ more ih =>
    have hkeeps : keeps t true = true := hkeeps.resolve_left (Nat.succ_ne_zero more)
    obtain ⟨m, hrounds, harray, hm⟩ := ih (Or.inr hkeeps) fun j hj => hroom j (by omega)
    obtain ⟨m', hinner, hmatched, hm'⟩ := h.offers m t true hm hkeeps
    have hne : t ≠ slot := by
      rintro rfl
      rw [hblank] at hs
      cases hs
    refine ⟨m'.assign slot (.array (count + more + 1)), hrounds.tail ?_, ?_, ?_⟩
    · rw [path_round h harray, if_neg (by simp [hroom more (Nat.lt_succ_self more)])]
      exact ⟨m', true, hinner, hmatched, rfl, rfl⟩
    · exact Locals.assign_self ..
    · exact (m'.assign_of_ne _ hne).trans hm'

omit h in
theorem path_gather (ending : Ending) :
    (gather most slot inner).Path s ending s' ↔ ending = .done ∧
      ∃ m, Rounds (round most slot inner).Path (s.assign slot (.array 0)) m ∧
        (round most slot inner).Path m .left s' := by
  simp [gather, Code.Path]
  grind

theorem gather_lands {ending : Ending} (hpath : (gather most slot inner).Path s ending s') :
    ending = .done ∧ ∃ count, s'.results slot = .array count ∧ Onward slot s s' ∧
      ∀ t, s'.results t = .blank → StopsAt most (keeps t true) (keeps t false) count := by
  obtain ⟨hdone, m, hrounds, hround⟩ := (path_gather ending).mp hpath
  obtain ⟨count, harray, honward, hroom, hagain⟩ :=
    rounds_lands h (Locals.assign_self ..) hrounds
  rw [Nat.zero_add] at harray
  simp only [Nat.zero_add] at hroom
  have hfirst : Onward slot s (s.assign slot (.array 0)) :=
    (Onward.refl slot s).assign (Nat.le_refl slot) nofun
  have honward : Onward slot s m := hfirst.trans honward
  rw [path_round h harray] at hround
  cases hfull : isFull most count with
  | true =>
    rw [if_pos hfull] at hround
    obtain ⟨-, rfl⟩ := hround
    exact ⟨hdone, count, harray, honward,
      fun t ht => ⟨hagain t ht, hroom, Or.inl hfull⟩⟩
  | false =>
    rw [if_neg (by simp [hfull])] at hround
    obtain ⟨m', matched, hinner, hmatched, hrest⟩ := hround
    obtain ⟨-, honward', matched', hmatched', hkeeps⟩ := h.lands m _ m' hinner
    obtain rfl := hmatched.unique hmatched'
    cases matched with
    | true => cases hrest.1
    | false =>
      obtain ⟨-, rfl⟩ := hrest
      refine ⟨hdone, count, (honward'.below slot (Nat.lt_succ_self slot)).trans harray,
        honward.trans (honward'.mono (Nat.le_succ slot)), ?_⟩
      intro t ht
      exact ⟨hagain t (honward'.assigned t ht), hroom, Or.inr ⟨hkeeps t ht, hfull⟩⟩

theorem gather_offers {t : Nat} (hne : t ≠ slot) (hblank : s.results t = .blank)
    (hstops : StopsAt most (keeps t true) (keeps t false) count) :
    ∃ s', (gather most slot inner).Path s .done s' ∧ s'.results slot = .array count ∧
      s'.results t = .blank := by
  have hroom : ∀ j < count, isFull most (0 + j) = false := by
    simpa only [Nat.zero_add] using hstops.room
  obtain ⟨m, hrounds, harray, hm⟩ := rounds_offers h (s := s.assign slot (.array 0))
    (Locals.assign_self ..) ((s.assign_of_ne _ hne).trans hblank) hstops.again hroom
  rw [Nat.zero_add] at harray
  rcases hstops.stop with hfull | ⟨hstop, hfull⟩
  · refine ⟨m, (path_gather _).mpr ⟨rfl, m, hrounds, ?_⟩, harray, hm⟩
    rw [path_round h harray, if_pos hfull]
    exact ⟨rfl, rfl⟩
  · obtain ⟨m', hinner, hfailed, hm'⟩ := h.offers m t false hm hstop
    refine ⟨m', (path_gather _).mpr ⟨rfl, m, hrounds, ?_⟩, ?_, hm'⟩
    · rw [path_round h harray, if_neg (by simp [hfull])]
      exact ⟨m', false, hinner, hfailed, rfl, rfl⟩
    · exact ((h.lands m _ m' hinner).2.1.below slot (Nat.lt_succ_self slot)).trans harray

theorem strays_gather (s : Locals) (l : Local) :
    (gather most slot inner).Strays s l ↔ ∃ t, l = .result t ∧ s.results t = .blank ∧
      (t != slot && !isFull most 0 && exposes t) = true := by
  have hgather : (gather most slot inner).Strays s l ↔
      ∃ m, Rounds (round most slot inner).Path (s.assign slot (.array 0)) m ∧
        (round most slot inner).Strays m l := by
    simp [gather, Code.Strays]
  rw [hgather]
  constructor
  · rintro ⟨m, hrounds, hstrays⟩
    obtain ⟨count, harray, honward, -, -⟩ := rounds_lands h (Locals.assign_self ..) hrounds
    obtain ⟨hfull, hinner⟩ := (strays_round h harray l).mp hstrays
    obtain ⟨t, rfl, hm, ht⟩ := (h.strays m l nofun).mp hinner
    obtain ⟨hne, hblank⟩ := Locals.blank_of_assign (honward.assigned t hm) nofun
    have hfirst : isFull most 0 = false := by
      cases most with
      | none => rfl
      | some max =>
        simp [isFull] at hfull ⊢
        omega
    exact ⟨t, rfl, hblank, by simp [hne, hfirst, ht]⟩
  · -- The first round is enough.
    rintro ⟨t, rfl, hblank, ht⟩
    simp only [Bool.and_eq_true, bne_iff_ne, ne_eq, Bool.not_eq_true'] at ht
    refine ⟨_, .refl, (strays_round h (Locals.assign_self ..) _).mpr ⟨ht.1.2, ?_⟩⟩
    exact (h.strays _ _ nofun).mpr ⟨t, rfl, (s.assign_of_ne _ ht.1.1).trans hblank, ht.2⟩

omit h in
theorem path_enough {least : UInt32} {start : Nat} (hs : s.results slot = .array count)
    (ending : Ending) : (enough least slot start).Path s ending s' ↔
      ending = .done ∧ s' = if least.toNat ≤ count then s else s.assign slot .failed := by
  by_cases hle : least.toNat ≤ count
  · have hnot : ¬ count < least.toNat := by omega
    simp [enough, Code.Path, hs, Cell.Counts, hle, hnot]
  · have hlt : count < least.toNat := by omega
    simp [enough, Code.Path, hs, Cell.Counts, hle, hlt]
    grind

omit h in
theorem strays_enough {least : UInt32} {start : Nat} (hs : s.results slot = .array count)
    (hsaved : s.saved start = true) (l : Local) : ¬ (enough least slot start).Strays s l := by
  simp [enough, Code.Strays]
  grind

theorem traces_enough (quantifier : Quantifier) (start : Nat) :
    Traces [start] (gather quantifier.most slot inner ++ enough quantifier.least slot start) slot
      (fun t matched => t != slot && quantifier.keeps (keeps t true) (keeps t false) matched)
      fun t => t != slot && !isFull quantifier.most 0 && exposes t := by
  have hpath : ∀ s ending s', (gather quantifier.most slot inner ++
      enough quantifier.least slot start).Path s ending s' ↔
        ∃ m, (gather quantifier.most slot inner).Path s .done m ∧
          (enough quantifier.least slot start).Path m ending s' := by
    intro s ending s'
    refine (path_append ..).trans (or_iff_left ?_)
    rintro ⟨hne, hgather⟩
    exact hne (gather_lands h hgather).1
  refine ⟨?_, ?_, ?_⟩
  · intro s ending s' hboth
    obtain ⟨m, hgather, henough⟩ := (hpath s ending s').mp hboth
    obtain ⟨-, count, harray, honward, hstops⟩ := gather_lands h hgather
    obtain ⟨rfl, rfl⟩ := (path_enough harray ending).mp henough
    have hkeeps : ∀ t, t ≠ slot → m.results t = .blank → (t != slot && quantifier.keeps
        (keeps t true) (keeps t false) (decide (quantifier.least.toNat ≤ count))) = true := by
      intro t hne ht
      have hk := (keeps_iff quantifier _ _ _).mpr ⟨count, hstops t ht, rfl⟩
      simp [hne, hk]
    refine ⟨rfl, ?_, decide (quantifier.least.toNat ≤ count), ?_⟩
    · split
      · exact honward
      · exact honward.assign (Nat.le_refl slot) nofun
    · by_cases hle : quantifier.least.toNat ≤ count
      · rw [if_pos hle, harray]
        refine ⟨decide_eq_true hle, ?_⟩
        intro t ht
        refine hkeeps t ?_ ht
        rintro rfl
        rw [harray] at ht
        cases ht
      · rw [if_neg hle, Locals.assign_self]
        refine ⟨decide_eq_false hle, ?_⟩
        intro t ht
        obtain ⟨hne, hblank⟩ := Locals.blank_of_assign ht nofun
        exact hkeeps t hne hblank
  · intro s t matched hblank hkeeps
    simp only [Bool.and_eq_true, bne_iff_ne, ne_eq] at hkeeps
    obtain ⟨hne, hk⟩ := hkeeps
    obtain ⟨count, hstops, rfl⟩ := (keeps_iff quantifier _ _ _).mp hk
    obtain ⟨m, hgather, harray, hm⟩ := gather_offers h hne hblank hstops
    refine ⟨_, (hpath ..).mpr ⟨m, hgather, (path_enough harray _).mpr ⟨rfl, rfl⟩⟩, ?_⟩
    by_cases hle : quantifier.least.toNat ≤ count
    · rw [if_pos hle, harray]
      exact ⟨decide_eq_true hle, hm⟩
    · rw [if_neg hle, Locals.assign_self]
      exact ⟨decide_eq_false hle, (m.assign_of_ne _ hne).trans hm⟩
  · intro s l hsaved
    rw [← strays_gather h s l, strays_append]
    refine or_iff_left ?_
    rintro ⟨m, hgather, henough⟩
    obtain ⟨-, count, harray, honward, -⟩ := gather_lands h hgather
    exact strays_enough harray (honward.saved start (hsaved start List.mem_cons_self)) l henough

theorem traces_gather {quantifier : Quantifier} (hleast : quantifier.least.toNat = 0) :
    Traces [] (gather quantifier.most slot inner) slot
      (fun t matched => t != slot && quantifier.keeps (keeps t true) (keeps t false) matched)
      fun t => t != slot && !isFull quantifier.most 0 && exposes t := by
  refine ⟨?_, ?_, fun s l _ => strays_gather h s l⟩
  · intro s ending s' hpath
    obtain ⟨hdone, count, harray, honward, hstops⟩ := gather_lands h hpath
    refine ⟨hdone, honward, true, harray ▸ rfl, ?_⟩
    intro t ht
    have hne : t ≠ slot := by
      rintro rfl
      rw [harray] at ht
      cases ht
    have hk := (keeps_iff quantifier _ _ true).mpr ⟨count, hstops t ht, by simp [hleast]⟩
    simp [hne, hk]
  · intro s t matched hblank hkeeps
    simp only [Bool.and_eq_true, bne_iff_ne, ne_eq] at hkeeps
    obtain ⟨hne, hk⟩ := hkeeps
    obtain ⟨count, hstops, rfl⟩ := (keeps_iff quantifier _ _ _).mp hk
    obtain ⟨m, hgather, harray, hm⟩ := gather_offers h hne hblank hstops
    exact ⟨m, hgather, by simp [harray, hleast, Cell.Is], hm⟩

theorem traces_repeated (quantifier : Quantifier) (start : Nat) :
    Traces [] (repeated quantifier slot start inner) slot
      (fun t matched => t != slot && quantifier.keeps (keeps t true) (keeps t false) matched)
      fun t => t != slot && !isFull quantifier.most 0 && exposes t := by
  unfold repeated
  split
  · exact (traces_enough h quantifier start).after_save.congr (alike_append_assoc ..)
  · rename_i hleast
    exact traces_gather h (Nat.eq_zero_of_not_pos hleast)

end Round

theorem pathAll_free (slots : List Nat) (rest : List Instruction) (s : Locals) (ending : Ending)
    (s' : Locals) : Instruction.PathAll (slots.map .free ++ rest) s ending s' ↔
      Instruction.PathAll rest s ending s' := by
  induction slots with
  | nil => rfl
  | cons slot slots ih =>
    simp only [List.map_cons, List.cons_append, Instruction.PathAll, Instruction.Path, true_and,
      exists_eq_left, ih]
    grind

theorem straysAll_free {slots : List Nat} {s : Locals} (hs : ∀ i ∈ slots, s.results i ≠ .blank)
    (rest : List Instruction) (l : Local) :
    Instruction.StraysAll (slots.map .free ++ rest) s l ↔ Instruction.StraysAll rest s l := by
  induction slots with
  | nil => rfl
  | cons slot slots ih =>
    obtain ⟨hslot, hslots⟩ := List.forall_mem_cons.mp hs
    have hfree : ¬ (Instruction.free slot).Strays s l := by
      rintro ⟨hl, hunset⟩
      rw [List.mem_singleton.mp hl] at hunset
      exact hslot hunset
    simp only [List.map_cons, List.cons_append, Instruction.StraysAll, hfree, false_or,
      Instruction.Path, true_and, exists_eq_left, ih hslots]

/-- The paths through the elements of a sequence after the first `done`: they match in a row of
slots, or one fails and the sequence is left. -/
structure TracesRow (code : Code) (slot start done count : Nat) (keeps : Nat → Bool → Bool)
    (exposes : Nat → Bool) : Prop where
  lands : ∀ s ending s', code.Path s ending s' →
    ending = .done ∧ Onward (slot + done) s s' ∧
        (∀ i < count, s'.results (slot + done + i) ≠ .blank) ∧
        (∀ t, s'.results t = .blank → keeps t true = true) ∨
      ending = .left ∧ Onward slot s s' ∧ s'.results slot = .failed ∧
        ∀ t, s'.results t = .blank → keeps t false = true
  offers_match : ∀ s t, s.results t = .blank → keeps t true = true →
    ∃ s', code.Path s .done s' ∧ s'.results t = .blank
  offers_failure : ∀ s t, s.results t = .blank → t ≠ slot → keeps t false = true →
    ∃ s', code.Path s .left s' ∧ s'.results t = .blank
  strays : ∀ s l, s.saved start = true → (∀ i < done, s.results (slot + i) ≠ .blank) →
    (code.Strays s l ↔ ∃ t, l = .result t ∧ s.results t = .blank ∧ exposes t = true)

theorem tracesRow_nil (slot start done : Nat) :
    TracesRow skip slot start done 0 (fun _ matched => matched) fun _ => false := by
  refine ⟨?_, ?_, nofun, ?_⟩
  · rintro s ending s' ⟨rfl, rfl⟩
    exact Or.inl ⟨rfl, .refl .., nofun, fun _ _ => rfl⟩
  · intro s t hblank _
    exact ⟨s, ⟨rfl, rfl⟩, hblank⟩
  · simp

section Elements

variable {slot start done count : Nat} {inner rest : Code} {keeps keeps' : Nat → Bool → Bool}
  {exposes exposes' : Nat → Bool} {s s' : Locals}

theorem path_element (h : Traces [] inner (slot + done) keeps exposes) (ending : Ending) :
    (element done slot start inner).Path s ending s' ↔
      ∃ m matched, inner.Path s .done m ∧ (m.results (slot + done)).Is matched ∧
        if matched then ending = .done ∧ s' = m else ending = .left ∧ s' = m.assign slot .failed := by
  have hafter : ∀ m matched, (m.results (slot + done)).Is matched →
      ((all [branch (.failed (slot + done)) ((List.range' slot done).reverse.map .free ++
        [.rewind start, .assign slot .failed, .leave]) [], blank]).Path m ending s' ↔
        if matched then ending = .done ∧ s' = m
        else ending = .left ∧ s' = m.assign slot .failed) := by
    intro m matched hmatched
    cases matched with
    | true => simp [path_branch_failed hmatched]
    | false =>
      simp [path_branch_failed hmatched, pathAll_free, -List.map_reverse]
      grind
  have hpath : (element done slot start inner).Path s ending s' ↔ ∃ m, inner.Path s .done m ∧
      (all [branch (.failed (slot + done)) ((List.range' slot done).reverse.map .free ++
        [.rewind start, .assign slot .failed, .leave]) [], blank]).Path m ending s' := by
    rw [← h.path_append_iff]
    simp only [element, all, path_append, path_remark, true_and, exists_eq_left]
    grind
  rw [hpath]
  constructor
  · rintro ⟨m, hm, hrest⟩
    obtain ⟨-, -, matched, hmatched, -⟩ := h.lands s _ m hm
    exact ⟨m, matched, hm, hmatched, (hafter m matched hmatched).mp hrest⟩
  · rintro ⟨m, matched, hm, hmatched, hrest⟩
    exact ⟨m, hm, (hafter m matched hmatched).mpr hrest⟩

theorem strays_element (h : Traces [] inner (slot + done) keeps exposes)
    (hsaved : s.saved start = true) (hs : ∀ i < done, s.results (slot + i) ≠ .blank) (l : Local) :
    (element done slot start inner).Strays s l ↔ inner.Strays s l := by
  have hafter : ∀ m, inner.Path s .done m →
      ¬ (all [branch (.failed (slot + done)) ((List.range' slot done).reverse.map .free ++
        [.rewind start, .assign slot .failed, .leave]) [], blank]).Strays m l := by
    intro m hm
    obtain ⟨-, honward, matched, hmatched, -⟩ := h.lands s _ m hm
    have hm : m.saved start = true := honward.saved start hsaved
    have hset : ∀ i ∈ (List.range' slot done).reverse, m.results i ≠ .blank := by
      intro i hi hblank
      obtain ⟨j, hj, rfl⟩ := List.mem_range'.mp (List.mem_reverse.mp hi)
      rw [Nat.one_mul] at hblank
      exact hs j hj (honward.assigned _ hblank)
    cases matched with
    | true => simp [strays_branch_failed hmatched]
    | false =>
      simp [strays_branch_failed hmatched, straysAll_free hset, -List.map_reverse]
      grind
  simp only [element, all, strays_append, strays_remark, path_remark, true_and, exists_eq_left,
    false_or]
  refine or_iff_left ?_
  rintro ⟨m, hm, hstrays⟩
  exact hafter m hm hstrays

theorem tracesRow_cons (h : Traces [] inner (slot + done) keeps exposes)
    (hrest : TracesRow rest slot start (done + 1) count keeps' exposes') :
    TracesRow (element done slot start inner ++ rest) slot start done (count + 1)
      (fun t matched => !matched && keeps t false || keeps t true && keeps' t matched)
      fun t => exposes t || keeps t true && exposes' t := by
  have hgoes : ∀ s m, (element done slot start inner).Path s .done m ↔
      inner.Path s .done m ∧ (m.results (slot + done)).Is true := by
    intro s m
    rw [path_element h]
    constructor
    · rintro ⟨m', matched, hinner, hmatched, hend⟩
      cases matched with
      | false => cases hend.1
      | true =>
        obtain ⟨-, rfl⟩ := hend
        exact ⟨hinner, hmatched⟩
    · rintro ⟨hinner, hmatched⟩
      exact ⟨m, true, hinner, hmatched, rfl, rfl⟩
  have hnext : ∀ {s m}, (∀ i < done, s.results (slot + i) ≠ .blank) → Onward (slot + done) s m →
      (m.results (slot + done)).Is true → ∀ i < done + 1, m.results (slot + i) ≠ .blank := by
    intro s m hs honward hmatched i hi hblank
    rcases Nat.lt_or_ge i done with hlt | hge
    · exact hs i hlt (honward.assigned _ hblank)
    · rw [show i = done by omega] at hblank
      exact hmatched.ne_blank hblank
  refine ⟨?_, ?_, ?_, ?_⟩
  · intro s ending s' hpath
    rcases hpath with ⟨m, helement, hpath⟩ | ⟨hne, helement⟩
    · obtain ⟨hinner, hmatched⟩ := (hgoes s m).mp helement
      obtain ⟨-, honward, matched, hmatched', hkeeps⟩ := h.lands s _ m hinner
      obtain rfl := hmatched.unique hmatched'
      rcases hrest.lands m ending s' hpath with
        ⟨rfl, honward', hset, hkeeps'⟩ | ⟨rfl, honward', hfailed, hkeeps'⟩
      · refine Or.inl ⟨rfl, honward.trans (honward'.mono (by omega)), ?_, ?_⟩
        · intro i hi
          cases i with
          | zero =>
            intro hblank
            exact hmatched.ne_blank (honward'.assigned _ hblank)
          | succ i =>
            have hs := hset i (by omega)
            rwa [show slot + done + (i + 1) = slot + (done + 1) + i by omega]
        · intro t ht
          simp [hkeeps t (honward'.assigned t ht), hkeeps' t ht]
      · refine Or.inr ⟨rfl, (honward.mono (Nat.le_add_right slot done)).trans honward', hfailed, ?_⟩
        intro t ht
        simp [hkeeps t (honward'.assigned t ht), hkeeps' t ht]
    · obtain ⟨m, matched, hinner, hmatched, hend⟩ := (path_element h ending).mp helement
      obtain ⟨-, honward, matched', hmatched', hkeeps⟩ := h.lands s _ m hinner
      obtain rfl := hmatched.unique hmatched'
      cases matched with
      | true => exact absurd hend.1 hne
      | false =>
        obtain ⟨rfl, rfl⟩ := hend
        refine Or.inr ⟨rfl, (honward.mono (Nat.le_add_right slot done)).assign (Nat.le_refl slot)
          nofun, Locals.assign_self .., ?_⟩
        intro t ht
        simp [hkeeps t (Locals.blank_of_assign ht nofun).2]
  · intro s t hblank hkeeps
    simp only [Bool.not_true, Bool.false_and, Bool.false_or, Bool.and_eq_true] at hkeeps
    obtain ⟨m, hinner, hmatched, hm⟩ := h.offers s t true hblank hkeeps.1
    obtain ⟨s', hpath, hs'⟩ := hrest.offers_match m t hm hkeeps.2
    exact ⟨s', Or.inl ⟨m, (hgoes s m).mpr ⟨hinner, hmatched⟩, hpath⟩, hs'⟩
  · intro s t hblank hne hkeeps
    simp only [Bool.not_false, Bool.true_and, Bool.or_eq_true, Bool.and_eq_true] at hkeeps
    rcases hkeeps with hkeeps | ⟨hkeeps, hkeeps'⟩
    · obtain ⟨m, hinner, hfailed, hm⟩ := h.offers s t false hblank hkeeps
      refine ⟨m.assign slot .failed, Or.inr ⟨nofun, ?_⟩, (m.assign_of_ne _ hne).trans hm⟩
      exact (path_element h _).mpr ⟨m, false, hinner, hfailed, rfl, rfl⟩
    · obtain ⟨m, hinner, hmatched, hm⟩ := h.offers s t true hblank hkeeps
      obtain ⟨s', hpath, hs'⟩ := hrest.offers_failure m t hm hne hkeeps'
      exact ⟨s', Or.inl ⟨m, (hgoes s m).mpr ⟨hinner, hmatched⟩, hpath⟩, hs'⟩
  · intro s l hsaved hs
    rw [strays_append, strays_element h hsaved hs, h.strays s l nofun]
    constructor
    · rintro (⟨t, rfl, hblank, ht⟩ | ⟨m, helement, hstrays⟩)
      · exact ⟨t, rfl, hblank, by simp [ht]⟩
      · obtain ⟨hinner, hmatched⟩ := (hgoes s m).mp helement
        obtain ⟨-, honward, matched, hmatched', hkeeps⟩ := h.lands s _ m hinner
        obtain rfl := hmatched.unique hmatched'
        obtain ⟨t, rfl, hblank, ht⟩ := (hrest.strays m l (honward.saved start hsaved)
          (hnext hs honward hmatched)).mp hstrays
        exact ⟨t, rfl, honward.assigned t hblank, by simp [hkeeps t hblank, ht]⟩
    · rintro ⟨t, rfl, hblank, ht⟩
      simp only [Bool.or_eq_true, Bool.and_eq_true] at ht
      rcases ht with ht | ⟨hkeeps, ht⟩
      · exact Or.inl ⟨t, rfl, hblank, ht⟩
      · obtain ⟨m, hinner, hmatched, hm⟩ := h.offers s t true hblank hkeeps
        have honward := (h.lands s _ m hinner).2.1
        refine Or.inr ⟨m, (hgoes s m).mpr ⟨hinner, hmatched⟩, ?_⟩
        exact (hrest.strays m _ (honward.saved start hsaved) (hnext hs honward hmatched)).mpr
          ⟨t, rfl, hm, ht⟩

end Elements

/-- A sequence calls its action with `args`, if it has one, when all its elements have matched. -/
theorem traces_sequence {count slot start : Nat} {call inner : Code} {keeps : Nat → Bool → Bool}
    {exposes : Nat → Bool} {args : List Nat} (h : TracesRow inner slot start 0 count keeps exposes)
    (hpath : ∀ s ending s', call.Path s ending s' ↔ ending = .done ∧ s' = s)
    (hstrays : ∀ s l, call.Strays s l ↔ ∃ t ∈ args, l = .result t ∧ s.results t = .blank) :
    Traces [] (sequence count slot start call inner) slot (fun t matched => t != slot && keeps t matched)
      fun t => exposes t || keeps t true && args.contains t := by
  apply Traces.after_save
  have hends : ∀ s ending s', (all [call, instr (.assign slot (.wrapped start
      (List.range' slot count)))]).Path s ending s' ↔ ending = .done ∧ s' = s.assign slot .value := by
    intro s ending s'
    simp [hpath]
    grind
  have hloop : ∀ s ending s', (loop .sequence (all [inner, call, instr (.assign slot
      (.wrapped start (List.range' slot count)))])).Path s ending s' ↔ ending = .done ∧
        ((∃ m, inner.Path s .done m ∧ s' = m.assign slot .value) ∨ inner.Path s .left s') := by
    intro s ending s'
    refine and_congr_right fun _ => ?_
    refine (or_congr (path_append ..) (path_append ..)).trans ?_
    simp only [hends]
    grind
  refine ⟨?_, ?_, ?_⟩
  · intro s ending s' h'
    obtain ⟨rfl, ⟨m, hinner, rfl⟩ | hinner⟩ := (hloop s ending s').mp h'
    · rcases h.lands s _ m hinner with ⟨-, honward, -, hkeeps⟩ | ⟨hleft, -⟩
      · refine ⟨rfl, honward.assign (Nat.le_refl slot) nofun, true, ?_, ?_⟩
        · rw [Locals.assign_self]
          rfl
        · intro t ht
          obtain ⟨hne, hblank⟩ := Locals.blank_of_assign ht nofun
          simp [hne, hkeeps t hblank]
      · cases hleft
    · rcases h.lands s _ s' hinner with ⟨hdone, -⟩ | ⟨-, honward, hfailed, hkeeps⟩
      · cases hdone
      · refine ⟨rfl, honward, false, hfailed ▸ rfl, ?_⟩
        intro t ht
        have hne : t ≠ slot := by
          rintro rfl
          rw [hfailed] at ht
          cases ht
        simp [hne, hkeeps t ht]
  · intro s t matched hblank hkeeps
    simp only [Bool.and_eq_true, bne_iff_ne, ne_eq] at hkeeps
    obtain ⟨hne, hkeeps⟩ := hkeeps
    cases matched with
    | true =>
      obtain ⟨m, hinner, hm⟩ := h.offers_match s t hblank hkeeps
      refine ⟨m.assign slot .value, (hloop ..).mpr ⟨rfl, Or.inl ⟨m, hinner, rfl⟩⟩, ?_, ?_⟩
      · rw [Locals.assign_self]
        rfl
      · exact (m.assign_of_ne _ hne).trans hm
    | false =>
      obtain ⟨m, hinner, hm⟩ := h.offers_failure s t hblank hne hkeeps
      refine ⟨m, (hloop ..).mpr ⟨rfl, Or.inr hinner⟩, ?_, hm⟩
      rcases h.lands s _ m hinner with ⟨hdone, -⟩ | ⟨-, -, hfailed, -⟩
      · cases hdone
      · rw [hfailed]
        rfl
  · intro s l hsaved
    have hstart : s.saved start = true := hsaved start List.mem_cons_self
    have hwrap : ∀ m, inner.Path s .done m →
        ¬ (Instruction.assign slot (.wrapped start (List.range' slot count))).Strays m l := by
      rintro m hinner ⟨hl, hunset⟩
      rcases h.lands s _ m hinner with ⟨-, honward, hset, -⟩ | ⟨hleft, -⟩
      · simp only [Instruction.reads, Operand.reads, List.mem_cons, List.mem_map] at hl
        rcases hl with rfl | ⟨i, hi, rfl⟩
        · have hm := honward.saved start hstart
          rw [Locals.Unset, hm] at hunset
          cases hunset
        · obtain ⟨j, hj, rfl⟩ := List.mem_range'.mp hi
          rw [Nat.one_mul] at hunset
          exact hset j hj hunset
      · cases hleft
    have hloopStrays : (loop .sequence (all [inner, call, instr (.assign slot (.wrapped start
        (List.range' slot count)))])).Strays s l ↔
          inner.Strays s l ∨ ∃ m, inner.Path s .done m ∧ call.Strays m l := by
      refine or_congr Iff.rfl (exists_congr fun m => and_congr_right fun hinner => ?_)
      refine or_iff_left ?_
      rintro ⟨m', hcall, hassign | ⟨_, _, hskip⟩⟩
      · obtain ⟨-, rfl⟩ := (hpath m _ m').mp hcall
        exact hwrap m' hinner hassign
      · exact hskip
    rw [hloopStrays, h.strays s l hstart nofun]
    constructor
    · rintro (⟨t, rfl, hblank, ht⟩ | ⟨m, hinner, hcall⟩)
      · exact ⟨t, rfl, hblank, by simp [ht]⟩
      · obtain ⟨t, hargs, rfl, hblank⟩ := (hstrays m l).mp hcall
        rcases h.lands s _ m hinner with ⟨-, honward, -, hkeeps⟩ | ⟨hleft, -⟩
        · exact ⟨t, rfl, honward.assigned t hblank, by simp [hkeeps t hblank, hargs]⟩
        · cases hleft
    · rintro ⟨t, rfl, hblank, ht⟩
      simp only [Bool.or_eq_true, Bool.and_eq_true, List.contains_iff_mem] at ht
      rcases ht with ht | ⟨hkeeps, hargs⟩
      · exact Or.inl ⟨t, rfl, hblank, ht⟩
      · obtain ⟨m, hinner, hm⟩ := h.offers_match s t hblank hkeeps
        exact Or.inr ⟨m, hinner, (hstrays m _).mpr ⟨t, hargs, rfl, hm⟩⟩

/-- The paths through alternatives: a match leaves the choice, and what fails goes on. -/
structure TracesFirst (code : Code) (slot : Nat) (keeps : Nat → Bool → Bool)
    (exposes : Nat → Bool) : Prop where
  lands : ∀ s ending s', code.Path s ending s' → (ending = .done ∨ ending = .left) ∧
    Onward slot s s' ∧ ∃ matched, (s'.results slot).Is matched ∧
      ∀ t, s'.results t = .blank → keeps t matched = true
  offers : ∀ s t matched, s.results t = .blank → keeps t matched = true →
    ∃ ending s', (ending = .done ∨ ending = .left) ∧ code.Path s ending s' ∧
      (s'.results slot).Is matched ∧ s'.results t = .blank
  strays : ∀ s l, code.Strays s l ↔ ∃ t, l = .result t ∧ s.results t = .blank ∧ exposes t = true

section Alternatives

variable {slot : Nat} {inner rest code : Code} {keeps keeps' : Nat → Bool → Bool}
  {exposes exposes' : Nat → Bool}

theorem tracesFirst_last (number : Nat) (h : Traces [] inner slot keeps exposes) :
    TracesFirst (all [remark (.alternative number), inner]) slot
      (fun t matched => matched && keeps t true || keeps t false && !matched) exposes := by
  have hpath : ∀ s ending s', (all [remark (.alternative number), inner]).Path s ending s' ↔
      inner.Path s ending s' := by
    intro s ending s'
    simp
    grind
  refine ⟨?_, ?_, ?_⟩
  · intro s ending s' hinner
    obtain ⟨rfl, honward, matched, hmatched, hkeeps⟩ := h.lands s _ s' ((hpath ..).mp hinner)
    refine ⟨Or.inl rfl, honward, matched, hmatched, ?_⟩
    intro t ht
    cases matched <;> simp [hkeeps t ht]
  · intro s t matched hblank hkeeps
    have hkeeps : keeps t matched = true := by
      cases matched <;> simpa using hkeeps
    obtain ⟨s', hinner, hs'⟩ := h.offers s t matched hblank hkeeps
    exact ⟨.done, s', Or.inl rfl, (hpath ..).mpr hinner, hs'⟩
  · intro s l
    rw [← h.strays s l nofun]
    simp

theorem path_alternative (number : Nat) (h : Traces [] inner slot keeps exposes) (s : Locals)
    (ending : Ending) (s' : Locals) : (alternative number slot inner).Path s ending s' ↔
      ∃ matched, inner.Path s .done s' ∧ (s'.results slot).Is matched ∧
        ending = if matched then .left else .done := by
  have hpath : (alternative number slot inner).Path s ending s' ↔ ∃ m, inner.Path s .done m ∧
      (all [guard (.matched slot) .leave, blank]).Path m ending s' := by
    rw [← h.path_append_iff]
    simp only [alternative, all, path_append, path_remark, true_and, exists_eq_left]
    grind
  have hafter : ∀ m matched, (m.results slot).Is matched →
      ((all [guard (.matched slot) .leave, blank]).Path m ending s' ↔
        s' = m ∧ ending = if matched then .left else .done) := by
    intro m matched hmatched
    cases matched <;> simp [path_guard_matched hmatched] <;> grind
  rw [hpath]
  constructor
  · rintro ⟨m, hinner, hrest⟩
    obtain ⟨-, -, matched, hmatched, -⟩ := h.lands s _ m hinner
    obtain ⟨rfl, hending⟩ := (hafter m matched hmatched).mp hrest
    exact ⟨matched, hinner, hmatched, hending⟩
  · rintro ⟨matched, hinner, hmatched, hending⟩
    exact ⟨s', hinner, (hafter s' matched hmatched).mpr ⟨rfl, hending⟩⟩

theorem strays_alternative (number : Nat) (h : Traces [] inner slot keeps exposes) (s : Locals)
    (l : Local) : (alternative number slot inner).Strays s l ↔ inner.Strays s l := by
  simp only [alternative, all, strays_append, strays_remark, path_remark, true_and,
    exists_eq_left, false_or]
  refine or_iff_left ?_
  rintro ⟨m, hinner, hrest⟩
  obtain ⟨-, -, matched, hmatched, -⟩ := h.lands s _ m hinner
  cases matched <;> simp [strays_guard_matched hmatched] at hrest

theorem tracesFirst_cons (number : Nat) (h : Traces [] inner slot keeps exposes)
    (hrest : TracesFirst rest slot keeps' exposes') :
    TracesFirst (alternative number slot inner ++ rest) slot
      (fun t matched => matched && keeps t true || keeps t false && keeps' t matched)
      fun t => exposes t || keeps t false && exposes' t := by
  refine ⟨?_, ?_, ?_⟩
  · rintro s ending s' (⟨m, hfirst, hpath⟩ | ⟨hne, hfirst⟩)
    · obtain ⟨matched, hinner, hmatched, hending⟩ := (path_alternative number h ..).mp hfirst
      obtain ⟨-, honward, matched', hmatched', hkeeps⟩ := h.lands s _ m hinner
      obtain rfl := hmatched.unique hmatched'
      cases matched with
      | true => cases hending
      | false =>
        obtain ⟨hend, honward', outcome, houtcome, hkeeps'⟩ := hrest.lands m ending s' hpath
        refine ⟨hend, honward.trans honward', outcome, houtcome, ?_⟩
        intro t ht
        simp [hkeeps t (honward'.assigned t ht), hkeeps' t ht]
    · obtain ⟨matched, hinner, hmatched, rfl⟩ := (path_alternative number h ..).mp hfirst
      obtain ⟨-, honward, matched', hmatched', hkeeps⟩ := h.lands s _ s' hinner
      obtain rfl := hmatched.unique hmatched'
      cases matched with
      | false => exact absurd rfl hne
      | true =>
        refine ⟨Or.inr rfl, honward, true, hmatched, ?_⟩
        intro t ht
        simp [hkeeps t ht]
  · intro s t matched hblank hkeeps
    simp only [Bool.or_eq_true, Bool.and_eq_true] at hkeeps
    rcases hkeeps with ⟨rfl, hkeeps⟩ | ⟨hkeeps, hkeeps'⟩
    · obtain ⟨s', hinner, hmatched, hs'⟩ := h.offers s t true hblank hkeeps
      refine ⟨.left, s', Or.inr rfl, Or.inr ⟨nofun, ?_⟩, hmatched, hs'⟩
      exact (path_alternative number h ..).mpr ⟨true, hinner, hmatched, rfl⟩
    · obtain ⟨m, hinner, hfailed, hm⟩ := h.offers s t false hblank hkeeps
      obtain ⟨ending, s', hend, hpath, hs'⟩ := hrest.offers m t matched hm hkeeps'
      refine ⟨ending, s', hend, Or.inl ⟨m, ?_, hpath⟩, hs'⟩
      exact (path_alternative number h ..).mpr ⟨false, hinner, hfailed, rfl⟩
  · intro s l
    rw [strays_append, strays_alternative number h, h.strays s l nofun]
    constructor
    · rintro (⟨t, rfl, hblank, ht⟩ | ⟨m, hfirst, hstrays⟩)
      · exact ⟨t, rfl, hblank, by simp [ht]⟩
      · obtain ⟨matched, hinner, hmatched, hending⟩ := (path_alternative number h ..).mp hfirst
        obtain ⟨-, honward, matched', hmatched', hkeeps⟩ := h.lands s _ m hinner
        obtain rfl := hmatched.unique hmatched'
        obtain ⟨t, rfl, hblank, ht⟩ := (hrest.strays m l).mp hstrays
        cases matched with
        | true => cases hending
        | false =>
          exact ⟨t, rfl, honward.assigned t hblank, by simp [hkeeps t hblank, ht]⟩
    · rintro ⟨t, rfl, hblank, ht⟩
      simp only [Bool.or_eq_true, Bool.and_eq_true] at ht
      rcases ht with ht | ⟨hkeeps, ht⟩
      · exact Or.inl ⟨t, rfl, hblank, ht⟩
      · obtain ⟨m, hinner, hfailed, hm⟩ := h.offers s t false hblank hkeeps
        refine Or.inr ⟨m, ?_, (hrest.strays m _).mpr ⟨t, rfl, hm, ht⟩⟩
        exact (path_alternative number h ..).mpr ⟨false, hinner, hfailed, rfl⟩

theorem traces_choice (h : TracesFirst code slot keeps exposes) :
    Traces [] (loop .choice code) slot (fun t matched => t != slot && keeps t matched)
      exposes := by
  refine ⟨?_, ?_, fun s l _ => h.strays s l⟩
  · rintro s ending s' ⟨rfl, hpath⟩
    obtain ⟨ending, hpath⟩ : ∃ ending, code.Path s ending s' := by
      rcases hpath with hpath | hpath
      · exact ⟨.done, hpath⟩
      · exact ⟨.left, hpath⟩
    obtain ⟨-, honward, matched, hmatched, hkeeps⟩ := h.lands s ending s' hpath
    refine ⟨rfl, honward, matched, hmatched, ?_⟩
    intro t ht
    have hne : t ≠ slot := by
      rintro rfl
      exact hmatched.ne_blank ht
    simp [hne, hkeeps t ht]
  · intro s t matched hblank hkeeps
    simp only [Bool.and_eq_true] at hkeeps
    obtain ⟨ending, s', hend, hpath, hs'⟩ := h.offers s t matched hblank hkeeps.2
    rcases hend with rfl | rfl
    · exact ⟨s', ⟨rfl, Or.inl hpath⟩, hs'⟩
    · exact ⟨s', ⟨rfl, Or.inr hpath⟩, hs'⟩

end Alternatives

end Template

end Backtrack
