import Backtrack.Proofs.Generation.ClosedForm
import Backtrack.Proofs.Ownership.Runs

/-!
# No value is lost, none is freed twice

The code of an expression begins where the slots below its own hold every value that is not freed,
and ends where its own slot holds them together with those below. That is kept by each way to put
code together, and so by the whole function of a rule.
-/

namespace Backtrack

set_option autoImplicit false

/-- Run from where the slots below `slot` hold all, it ends where `slot` holds all with them. -/
def Accounts (slot : Nat) (run : Store → Ending → Store → Prop) : Prop :=
  ∀ s ending s', s.Owns slot → run s ending s' →
    ending = .done ∧ s'.Owns (slot + 1) ∧ s.Same slot s'

/-- What is done to a slot that has its result. -/
def Retains (slot : Nat) (run : Store → Ending → Store → Prop) : Prop :=
  ∀ s ending s', s.Owns (slot + 1) → run s ending s' →
    ending = .done ∧ s'.Owns (slot + 1) ∧ s.Same slot s'

/-- Code that does nothing to results. -/
def Code.Idle (code : Code) : Prop :=
  ∀ s ending s', code.Runs s ending s' → ending = .done ∧ s' = s

section Compose

open Code

variable {slot : Nat} {first second : Code}

section Rest

variable {s s' : Store} {ending : Ending} (hrun : (first ++ second).Runs s ending s')
include hrun

theorem Code.Idle.rest (h : first.Idle) : second.Runs s ending s' := by
  rcases hrun with ⟨m, hfirst, hsecond⟩ | ⟨hne, hfirst⟩
  · obtain ⟨-, rfl⟩ := h s _ m hfirst
    exact hsecond
  · exact absurd (h s ending s' hfirst).1 hne

theorem Accounts.rest (h : Accounts slot first.Runs) (ho : s.Owns slot) :
    ∃ m, m.Owns (slot + 1) ∧ s.Same slot m ∧ second.Runs m ending s' := by
  rcases hrun with ⟨m, hfirst, hsecond⟩ | ⟨hne, hfirst⟩
  · obtain ⟨-, hm, hsame⟩ := h s _ m ho hfirst
    exact ⟨m, hm, hsame, hsecond⟩
  · exact absurd (h s ending s' ho hfirst).1 hne

end Rest

theorem Code.Idle.append (h : first.Idle) (h' : second.Idle) : (first ++ second).Idle :=
  fun s ending s' hrun => h' s ending s' (Code.Idle.rest hrun h)

theorem Code.Idle.retains (h : first.Idle) : Retains slot first.Runs := by
  intro s ending s' ho hrun
  obtain ⟨rfl, rfl⟩ := h s ending s' hrun
  exact ⟨rfl, ho, fun _ _ => rfl⟩

theorem Retains.append (h : Retains slot first.Runs) (h' : Retains slot second.Runs) :
    Retains slot (first ++ second).Runs := by
  intro s ending s' ho hrun
  rcases hrun with ⟨m, hfirst, hsecond⟩ | ⟨hne, hfirst⟩
  · obtain ⟨-, hm, hsame⟩ := h s _ m ho hfirst
    obtain ⟨hdone, ho', hsame'⟩ := h' m ending s' hm hsecond
    exact ⟨hdone, ho', hsame.trans hsame'⟩
  · exact absurd (h s ending s' ho hfirst).1 hne

theorem Accounts.append (h : Accounts slot first.Runs) (h' : Retains slot second.Runs) :
    Accounts slot (first ++ second).Runs := by
  intro s ending s' ho hrun
  obtain ⟨m, hm, hsame, hsecond⟩ := Accounts.rest hrun h ho
  obtain ⟨hdone, ho', hsame'⟩ := h' m ending s' hm hsecond
  exact ⟨hdone, ho', hsame.trans hsame'⟩

theorem Accounts.after (h : Accounts slot second.Runs) (hidle : first.Idle) :
    Accounts slot (first ++ second).Runs :=
  fun s ending s' ho hrun => h s ending s' ho (Code.Idle.rest hrun hidle)

theorem idle_skip : skip.Idle := fun _ _ _ h => h

theorem idle_blank : blank.Idle := fun _ _ _ h => h

theorem idle_remark (note : Remark) : (remark note).Idle := fun _ _ _ h => h

theorem idle_mute : (instr .mute).Idle := fun _ _ _ h => h

theorem idle_unmute : (instr .unmute).Idle := fun _ _ _ h => h

theorem idle_save (start : Nat) : (instr (.save start)).Idle := fun _ _ _ h => h

theorem idle_act (call : Call) : (instr (.act call)).Idle := fun _ _ _ h => h

end Compose

section Blocks

variable {slot : Nat} {rest yes no : List Instruction}

theorem Instruction.runsAll_cons {first : Instruction} {s m s' : Store} {ending : Ending}
    (hrun : RunsAll (first :: rest) s ending s')
    (h : ∀ ending' m', first.Runs s ending' m' → ending' = .done ∧ m' = m) :
    RunsAll rest m ending s' := by
  rcases hrun with ⟨m', hfirst, hrest⟩ | ⟨hne, hfirst⟩
  · obtain ⟨-, rfl⟩ := h _ _ hfirst
    exact hrest
  · exact absurd (h _ _ hfirst).1 hne

theorem retains_nil : Retains slot (Instruction.RunsAll []) := by
  rintro s ending s' ho ⟨rfl, rfl⟩
  exact ⟨rfl, ho, fun _ _ => rfl⟩

theorem retains_act (call : Call) : Retains slot (Instruction.RunsAll [.act call]) := by
  intro s ending s' ho hrun
  exact retains_nil s ending s' ho (Instruction.runsAll_cons hrun fun _ _ h => h)

theorem Accounts.rewind (h : Accounts slot (Instruction.RunsAll rest)) (start : Nat) :
    Accounts slot (Instruction.RunsAll (.rewind start :: rest)) := by
  intro s ending s' ho hrun
  exact h s ending s' ho (Instruction.runsAll_cons hrun fun _ _ h => h)

theorem Retains.rewind (h : Retains slot (Instruction.RunsAll rest)) (start : Nat) :
    Retains slot (Instruction.RunsAll (.rewind start :: rest)) := by
  intro s ending s' ho hrun
  exact h s ending s' ho (Instruction.runsAll_cons hrun fun _ _ h => h)

/-- The result is freed, so there is room for another. -/
theorem Accounts.free (h : Accounts slot (Instruction.RunsAll rest)) :
    Retains slot (Instruction.RunsAll (.free slot :: rest)) := by
  intro s ending s' ho hrun
  have hrest := Instruction.runsAll_cons hrun fun _ _ h => h
  obtain ⟨hdone, ho', hsame⟩ := h _ ending s' ho.free hrest
  exact ⟨hdone, ho', hsame⟩

/-- The operand is a sentinel or a new value. -/
def Operand.Simple (operand : Operand) : Prop :=
  ∀ s ref heap, operand.Yields s ref heap →
    ref.numbers = [] ∧ heap = s.heap ∨ ref = s.heap.next ∧ heap = s.heap.create

theorem Operand.simple_of_sentinel {operand : Operand} {sentinel : Ref}
    (hs : sentinel.numbers = [])
    (h : ∀ s ref heap, operand.Yields s ref heap → ref = sentinel ∧ heap = s.heap) :
    operand.Simple := by
  intro s ref heap hyields
  obtain ⟨rfl, rfl⟩ := h s ref heap hyields
  exact Or.inl ⟨hs, rfl⟩

theorem Operand.simple_failed : Operand.failed.Simple := simple_of_sentinel rfl fun _ _ _ h => h

theorem Operand.simple_failure (expected : Nat) : (Operand.failure expected).Simple :=
  simple_of_sentinel rfl fun _ _ _ h => h

theorem Operand.simple_noMatch : Operand.noMatch.Simple := simple_of_sentinel rfl fun _ _ _ h => h

theorem Operand.simple_matchedText (start : Nat) : (Operand.matchedText start).Simple :=
  fun _ _ _ h => Or.inr h

theorem accounts_assign {operand : Operand} (h : operand.Simple) :
    Accounts slot (Code.instr (.assign slot operand)).Runs := by
  rintro s ending s' ho ⟨rfl, ref, heap, hyields, rfl⟩
  refine ⟨rfl, ?_, Store.same_assign (Nat.le_refl slot) _ _⟩
  rcases h s ref heap hyields with ⟨hs, rfl⟩ | ⟨rfl, rfl⟩
  · exact ho.assign_sentinel hs
  · exact ho.assign_new

theorem accounts_assign_last {operand : Operand} (h : operand.Simple) :
    Accounts slot (Instruction.RunsAll [.assign slot operand]) := by
  intro s ending s' ho hrun
  apply accounts_assign h s ending s' ho
  rcases hrun with ⟨m, hassign, rfl, rfl⟩ | ⟨-, hassign⟩
  · exact hassign
  · exact hassign

theorem accounts_failed : Accounts slot (Instruction.RunsAll [.assign slot .failed]) :=
  accounts_assign_last Operand.simple_failed

theorem accounts_noMatch : Accounts slot (Instruction.RunsAll [.assign slot .noMatch]) :=
  accounts_assign_last Operand.simple_noMatch

/-- A failed result is a sentinel, which there is no need to free. -/
theorem owns_of_failed {s : Store} (ho : s.Owns (slot + 1))
    (h : (Condition.failed slot).Answers s true) : s.Owns slot := by
  have hfailed : s.results slot = .failed := of_decide_eq_true h.symm
  apply ho.drop
  rw [hfailed]
  rfl

theorem retains_branch_failed (hyes : Accounts slot (Instruction.RunsAll yes))
    (hno : Retains slot (Instruction.RunsAll no)) :
    Retains slot (Code.branch (.failed slot) yes no).Runs := by
  intro s ending s' ho hrun
  rcases hrun with ⟨hanswer, hrun⟩ | ⟨-, hrun⟩
  · exact hyes s ending s' (owns_of_failed ho hanswer) hrun
  · exact hno s ending s' ho hrun

theorem retains_branch_matched (hyes : Retains slot (Instruction.RunsAll yes)) :
    Retains slot (Code.branch (.matched slot) yes []).Runs := by
  intro s ending s' ho hrun
  rcases hrun with ⟨-, hrun⟩ | ⟨-, hrun⟩
  · exact hyes s ending s' ho hrun
  · exact retains_nil s ending s' ho hrun

theorem retains_guard_failed {operand : Operand} (h : operand.Simple) :
    Retains slot (Code.guard (.failed slot) (.assign slot operand)).Runs := by
  intro s ending s' ho hrun
  rcases hrun with ⟨hanswer, hrun⟩ | ⟨-, rfl, rfl⟩
  · exact accounts_assign h s ending s' (owns_of_failed ho hanswer) hrun
  · exact ⟨rfl, ho, fun _ _ => rfl⟩

end Blocks

namespace Template

open Code

variable {inner : Code} {slot start : Nat}

theorem accounts_predicate (negated : Bool) (call : Call) :
    Accounts slot (predicate negated slot call).Runs := by
  intro s ending s' ho hrun
  cases negated with
  | false =>
    rcases hrun with ⟨-, hrun⟩ | ⟨-, hrun⟩
    · exact accounts_noMatch s ending s' ho hrun
    · exact accounts_failed s ending s' ho hrun
  | true =>
    rcases hrun with ⟨-, hrun⟩ | ⟨-, hrun⟩
    · exact accounts_failed s ending s' ho hrun
    · exact accounts_noMatch s ending s' ho hrun

section Around

variable (h : Accounts slot inner.Runs)
include h

theorem accounts_named (expected : Nat) : Accounts slot (named slot expected inner).Runs := by
  have hassign : Accounts slot (Instruction.RunsAll [.assign slot (.failure expected)]) :=
    accounts_assign_last (Operand.simple_failure expected)
  apply Accounts.after _ idle_mute
  apply h.append
  apply idle_unmute.retains.append
  exact (retains_branch_failed hassign retains_nil).append idle_skip.retains

theorem accounts_text : Accounts slot (text slot start inner).Runs := by
  have hassign : Accounts slot (Instruction.RunsAll [.assign slot (.matchedText start)]) :=
    accounts_assign_last (Operand.simple_matchedText start)
  apply Accounts.after _ (idle_save start)
  apply h.append
  exact (retains_branch_matched hassign.free).append idle_skip.retains

theorem accounts_action (call : Call) : Accounts slot (action slot start call inner).Runs := by
  apply Accounts.after _ (idle_save start)
  apply h.append
  exact (retains_branch_matched (retains_act call)).append idle_skip.retains

theorem accounts_optional : Accounts slot (optional slot inner).Runs := by
  apply h.append
  exact (retains_guard_failed Operand.simple_noMatch).append idle_skip.retains

theorem accounts_lookahead (negated : Bool) :
    Accounts slot (lookahead negated slot start inner).Runs := by
  have hsilent : Accounts slot (all [instr (.save start), instr .mute, inner, instr .unmute]).Runs := by
    apply Accounts.after _ (idle_save start)
    apply Accounts.after _ idle_mute
    apply h.append
    exact idle_unmute.retains.append idle_skip.retains
  apply hsilent.append
  cases negated with
  | false => exact retains_branch_matched (accounts_noMatch.rewind start).free
  | true => exact retains_branch_failed (accounts_noMatch.rewind start) (accounts_failed.rewind start).free

end Around

/-- An array in `slot` that is a value, and with the slots below holds all. -/
def Gathering (slot : Nat) (s : Store) : Prop :=
  s.Owns (slot + 1) ∧ ∃ id, s.results slot = .value id

theorem runs_full {most : Option UInt32} {s s' : Store} {ending : Ending}
    (hrun : (match most with
      | some max => Code.guard (.full slot max) .leave
      | none => skip).Runs s ending s') : s' = s ∧ (ending = .done ∨ ending = .left) := by
  cases most with
  | none => exact ⟨hrun.2, Or.inl hrun.1⟩
  | some max =>
    rcases hrun with ⟨-, hleft, hs⟩ | ⟨-, hdone, hs⟩
    · exact ⟨hs, Or.inr hleft⟩
    · exact ⟨hs, Or.inl hdone⟩

/-- A round keeps the array, whether or not it is the last. -/
theorem runs_round {most : Option UInt32} (h : Accounts (slot + 1) inner.Runs) {s s' : Store}
    {ending : Ending} (hg : Gathering slot s) (hrun : (round most slot inner).Runs s ending s') :
    (ending = .done ∨ ending = .left) ∧ Gathering slot s' ∧ s.Same slot s' := by
  obtain ⟨ho, id, harray⟩ := hg
  rcases hrun with ⟨m, hfull, hrun⟩ | ⟨hne, hfull⟩
  · obtain ⟨rfl, -⟩ := runs_full hfull
    rcases hrun with ⟨m', hinner, hrun⟩ | ⟨hne, hinner⟩
    · obtain ⟨-, hitem, hsame⟩ := h m _ m' ho hinner
      have hkept : m'.results slot = .value id := (hsame slot (Nat.lt_succ_self slot)).trans harray
      have hbelow : m.Same slot m' := hsame.mono (Nat.le_succ slot)
      rcases hrun with ⟨m'', hguard, hrun⟩ | ⟨hne, hguard⟩
      · -- The item matched and goes into the array.
        rcases hguard with ⟨-, hleft, -⟩ | ⟨-, -, rfl⟩
        · cases hleft
        rcases hrun with ⟨last, ⟨-, rfl⟩, hskip⟩ | ⟨hne, hdone, -⟩
        · obtain ⟨rfl, rfl⟩ := hskip
          exact ⟨Or.inl rfl, ⟨hitem.append hkept, id, hkept⟩, hbelow⟩
        · exact absurd hdone hne
      · rcases hguard with ⟨hfailed, hleft, rfl⟩ | ⟨-, hdone, -⟩
        · exact ⟨Or.inr hleft, ⟨owns_of_failed hitem hfailed, id, hkept⟩, hbelow⟩
        · exact absurd hdone hne
    · exact absurd (h m _ _ ho hinner).1 hne
  · obtain ⟨rfl, hending⟩ := runs_full hfull
    exact ⟨hending, ⟨ho, id, harray⟩, fun _ _ => rfl⟩

theorem runs_rounds {most : Option UInt32} (h : Accounts (slot + 1) inner.Runs) {s s' : Store}
    (hg : Gathering slot s)
    (hrounds : Relation.ReflTransGen (fun a b => (round most slot inner).Runs a .done b) s s') :
    Gathering slot s' ∧ s.Same slot s' := by
  induction hrounds with
  | refl => exact ⟨hg, fun _ _ => rfl⟩
  | tail _ hround ih =>
    obtain ⟨hg', hsame⟩ := ih
    obtain ⟨-, hlast, hsame'⟩ := runs_round h hg' hround
    exact ⟨hlast, hsame.trans hsame'⟩

theorem accounts_gather {most : Option UInt32} (h : Accounts (slot + 1) inner.Runs) :
    Accounts slot (gather most slot inner).Runs := by
  intro s ending s' ho hrun
  rcases hrun with ⟨m, ⟨-, ref, heap, ⟨rfl, rfl⟩, rfl⟩, hrun⟩ | ⟨hne, hdone, -⟩
  · have hbegin : Gathering slot (s.assign slot s.heap.next s.heap.create) :=
      ⟨ho.assign_new, _, Store.assign_self slot _ _⟩
    have hsame : s.Same slot (s.assign slot s.heap.next s.heap.create) :=
      Store.same_assign (Nat.le_refl slot) _ _
    rcases hrun with ⟨m', ⟨-, last, hrounds, hlast⟩, hskip⟩ | ⟨hne, hdone, -⟩
    · obtain ⟨rfl, rfl⟩ := hskip
      obtain ⟨hg, hsame'⟩ := runs_rounds h hbegin hrounds
      obtain ⟨-, ⟨ho', -⟩, hsame''⟩ := runs_round h hg hlast
      exact ⟨rfl, ho', (hsame.trans hsame').trans hsame''⟩
    · exact absurd hdone hne
  · exact absurd hdone hne

theorem retains_enough (least : UInt32) : Retains slot (enough least slot start).Runs := by
  intro s ending s' ho hrun
  rcases hrun with ⟨-, hrun⟩ | ⟨-, hrun⟩
  · exact accounts_failed.free.rewind start s ending s' ho hrun
  · exact retains_nil s ending s' ho hrun

theorem accounts_repeated (quantifier : Quantifier) (h : Accounts (slot + 1) inner.Runs) :
    Accounts slot (repeated quantifier slot start inner).Runs := by
  unfold repeated
  split
  · exact (Accounts.after (accounts_gather h) (idle_save start)).append (retains_enough _)
  · exact accounts_gather h

/-- Results are freed from the topmost down. -/
theorem runsAll_frees {count : Nat} {rest : List Instruction} {s s' : Store} {ending : Ending}
    (ho : s.Owns (slot + count))
    (hrun : Instruction.RunsAll ((List.range' slot count).reverse.map .free ++ rest) s ending s') :
    ∃ m, m.Owns slot ∧ s.Same slot m ∧ Instruction.RunsAll rest m ending s' := by
  induction count generalizing s with
  | zero => exact ⟨s, ho, fun _ _ => rfl, hrun⟩
  | succ count ih =>
    rw [List.range'_1_concat, List.reverse_append] at hrun
    have hfree : Instruction.RunsAll _ { s with heap := s.heap.release (s.results (slot + count)) }
      ending s' := Instruction.runsAll_cons hrun fun _ _ h => h
    obtain ⟨m, hm, hsame, hrest⟩ := ih ho.free hfree
    exact ⟨m, hm, hsame, hrest⟩

/-- After `done` elements of a sequence, `count` more leave their results in a row. Where one fails,
the sequence is left and its slot holds the failure. -/
def AccountsRow (slot done count : Nat) (code : Code) : Prop :=
  ∀ s ending s', s.Owns (slot + done) → code.Runs s ending s' →
    s.Same slot s' ∧
      (ending = .done ∧ s'.Owns (slot + done + count) ∨ ending = .left ∧ s'.Owns (slot + 1))

theorem accountsRow_nil (done : Nat) : AccountsRow slot done 0 skip := by
  rintro s ending s' ho ⟨rfl, rfl⟩
  exact ⟨fun _ _ => rfl, Or.inl ⟨rfl, ho⟩⟩

/-- What is done where an element fails: the elements before it are freed. -/
theorem runs_undo {done : Nat} {s s' : Store} {ending : Ending} (ho : s.Owns (slot + done))
    (hrun : Instruction.RunsAll ((List.range' slot done).reverse.map .free ++
      [.rewind start, .assign slot .failed, .leave]) s ending s') :
    ending = .left ∧ s'.Owns (slot + 1) ∧ s.Same slot s' := by
  obtain ⟨m, hm, hsame, hrun⟩ := runsAll_frees ho hrun
  have hrest : Instruction.RunsAll [.assign slot .failed, .leave] m ending s' :=
    Instruction.runsAll_cons hrun fun _ _ h => h
  rcases hrest with ⟨m', hassign, hleave⟩ | ⟨hne, hdone, -⟩
  · obtain ⟨-, ho', hsame'⟩ := accounts_assign Operand.simple_failed m _ m' hm hassign
    rcases hleave with ⟨_, ⟨hleft, -⟩, -⟩ | ⟨-, rfl, rfl⟩
    · cases hleft
    · exact ⟨rfl, ho', hsame.trans hsame'⟩
  · exact absurd hdone hne

theorem accountsRow_element {done : Nat} (h : Accounts (slot + done) inner.Runs) :
    AccountsRow slot done 1 (element done slot start inner) := by
  intro s ending s' ho hrun
  obtain ⟨m, hm, hsame, hrun⟩ := Accounts.rest (Code.Idle.rest hrun (idle_remark _)) h ho
  have hbelow : s.Same slot m := hsame.mono (Nat.le_add_right slot done)
  rcases hrun with ⟨m', hbranch, htail⟩ | ⟨hne, hbranch⟩
  · obtain ⟨rfl, rfl⟩ := (idle_blank.append idle_skip) m' ending s' htail
    rcases hbranch with ⟨hfailed, hundo⟩ | ⟨-, -, rfl⟩
    · cases (runs_undo (owns_of_failed hm hfailed) hundo).1
    · exact ⟨hbelow, Or.inl ⟨rfl, hm⟩⟩
  · rcases hbranch with ⟨hfailed, hundo⟩ | ⟨-, hdone, -⟩
    · obtain ⟨hleft, ho', hsame'⟩ := runs_undo (owns_of_failed hm hfailed) hundo
      exact ⟨hbelow.trans hsame', Or.inr ⟨hleft, ho'⟩⟩
    · exact absurd hdone hne

theorem accountsRow_cons {done count : Nat} {more : Code}
    (h : Accounts (slot + done) inner.Runs) (h' : AccountsRow slot (done + 1) count more) :
    AccountsRow slot done (count + 1) (element done slot start inner ++ more) := by
  intro s ending s' ho hrun
  have helement : AccountsRow slot done 1 (element done slot start inner) := accountsRow_element h
  rcases hrun with ⟨m, hfirst, hmore⟩ | ⟨hne, hfirst⟩
  · obtain ⟨hsame, ⟨-, hm⟩ | ⟨hleft, -⟩⟩ := helement s _ m ho hfirst
    · obtain ⟨hsame', hend⟩ := h' m ending s' hm hmore
      refine ⟨hsame.trans hsame', ?_⟩
      rw [Nat.add_assoc slot done (count + 1), Nat.add_comm count 1, ← Nat.add_assoc done 1 count,
        ← Nat.add_assoc slot]
      exact hend
    · cases hleft
  · obtain ⟨hsame, ⟨hdone, -⟩ | hleft⟩ := helement s _ s' ho hfirst
    · exact absurd hdone hne
    · exact ⟨hsame, Or.inr hleft⟩

theorem accounts_sequence {count : Nat} {call : Code} (hcall : call.Idle)
    (h : AccountsRow slot 0 count inner) :
    Accounts slot (sequence count slot start call inner).Runs := by
  have hbody : ∀ s ending s', s.Owns slot →
      (all [inner, call, instr (.assign slot (.wrapped start (List.range' slot count)))]).Runs
        s ending s' → s'.Owns (slot + 1) ∧ s.Same slot s' := by
    intro s ending s' ho hrun
    rcases hrun with ⟨m, hinner, hrun⟩ | ⟨hne, hinner⟩
    · obtain ⟨hsame, ⟨-, hm⟩ | ⟨hleft, -⟩⟩ := h s _ m ho hinner
      · rcases Code.Idle.rest hrun hcall with
          ⟨m', ⟨-, ref, heap, ⟨rfl, rfl⟩, rfl⟩, -, rfl⟩ | ⟨hne, hdone, -⟩
        · exact ⟨hm.wrap, hsame.trans (Store.same_assign (Nat.le_refl slot) _ _)⟩
        · exact absurd hdone hne
      · cases hleft
    · obtain ⟨hsame, ⟨hdone, -⟩ | ⟨-, ho'⟩⟩ := h s _ s' ho hinner
      · exact absurd hdone hne
      · exact ⟨ho', hsame⟩
  apply Accounts.after _ (idle_save start)
  rintro s ending s' ho ⟨rfl, hrun | hrun⟩
  · exact ⟨rfl, hbody s _ s' ho hrun⟩
  · exact ⟨rfl, hbody s _ s' ho hrun⟩

/-- The first alternative that matches leaves the choice. -/
def AccountsFirst (slot : Nat) (code : Code) : Prop :=
  ∀ s ending s', s.Owns slot → code.Runs s ending s' →
    (ending = .done ∨ ending = .left) ∧ s'.Owns (slot + 1) ∧ s.Same slot s'

theorem accountsFirst_last (number : Nat) (h : Accounts slot inner.Runs) :
    AccountsFirst slot (all [remark (.alternative number), inner]) := by
  intro s ending s' ho hrun
  have hall : Accounts slot (all [remark (.alternative number), inner]).Runs :=
    (h.append idle_skip.retains).after (idle_remark _)
  obtain ⟨hdone, hrest⟩ := hall s ending s' ho hrun
  exact ⟨Or.inl hdone, hrest⟩

theorem accountsFirst_cons {more : Code} (number : Nat) (h : Accounts slot inner.Runs)
    (h' : AccountsFirst slot more) :
    AccountsFirst slot (alternative number slot inner ++ more) := by
  have halternative : ∀ s ending s', s.Owns slot →
      (alternative number slot inner).Runs s ending s' → s.Same slot s' ∧
        (ending = .done ∧ s'.Owns slot ∨ ending = .left ∧ s'.Owns (slot + 1)) := by
    intro s ending s' ho hrun
    obtain ⟨m, hm, hsame, hrun⟩ := Accounts.rest (Code.Idle.rest hrun (idle_remark _)) h ho
    rcases hrun with ⟨m', hguard, htail⟩ | ⟨hne, hguard⟩
    · obtain ⟨rfl, rfl⟩ := (idle_blank.append idle_skip) m' ending s' htail
      rcases hguard with ⟨-, hleft, -⟩ | ⟨hanswer, -, rfl⟩
      · cases hleft
      · have hfailed : s'.results slot = .failed := not_not.mp (of_decide_eq_false hanswer.symm)
        exact ⟨hsame, Or.inl ⟨rfl, hm.drop (by rw [hfailed]; rfl)⟩⟩
    · rcases hguard with ⟨-, hleft, rfl⟩ | ⟨-, hdone, -⟩
      · exact ⟨hsame, Or.inr ⟨hleft, hm⟩⟩
      · exact absurd hdone hne
  intro s ending s' ho hrun
  rcases hrun with ⟨m, hfirst, hmore⟩ | ⟨hne, hfirst⟩
  · obtain ⟨hsame, ⟨-, hm⟩ | ⟨hleft, -⟩⟩ := halternative s _ m ho hfirst
    · obtain ⟨hending, ho', hsame'⟩ := h' m ending s' hm hmore
      exact ⟨hending, ho', hsame.trans hsame'⟩
    · cases hleft
  · obtain ⟨hsame, ⟨hdone, -⟩ | ⟨hleft, ho'⟩⟩ := halternative s _ s' ho hfirst
    · exact absurd hdone hne
    · exact ⟨Or.inr hleft, ho', hsame⟩

theorem accounts_choice (h : AccountsFirst slot inner) : Accounts slot (loop .choice inner).Runs := by
  rintro s ending s' ho ⟨rfl, hrun | hrun⟩
  · exact ⟨rfl, (h s _ s' ho hrun).2⟩
  · exact ⟨rfl, (h s _ s' ho hrun).2⟩

end Template

end Backtrack
