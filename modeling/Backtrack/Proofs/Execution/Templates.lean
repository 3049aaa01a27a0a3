import Backtrack.Proofs.Execution.Following

/-!
# Code around code

For each way to put code around code: when what is inside follows an attempt, so does the whole.
-/

namespace Backtrack

set_option autoImplicit false

open Code

variable {Pos : Type}

namespace Follows

variable {tables : Session} {rt : Runtime Pos} {n : Nat} {sight : Sight Pos}
  {labels : List String} {env : Env} {slot start : Nat} {s : State Pos} {body : Code}
  {a : Attempt Pos (Value Pos)}

/-- The labels inside are out of sight afterwards. -/
theorem inScope {out : Ending × State Pos} (hs : sight.Held slot s)
    (h : Follows sight labels env slot start s out a) :
    Follows sight [] sight.slots slot start s out (a.inScope sight.bindings) := by
  cases h with
  | cut log => exact .cut log
  | failed log kept result back => exact .failed log kept result back
  | matched log kept result slots held since =>
    have hlog := log.append (logged_nil rfl)
    exact .matched hlog kept result rfl (kept.held hs) (sight.since_refl [])

/-- Afterwards the label stands for the match. -/
theorem labeled {out : Ending × State Pos} {label : String} (hs : sight.Held slot s)
    (h : Follows (sight.insert label (slot, .pending)) labels env slot start s out a) :
    Follows sight [label] (sight.slots.insert label slot) slot start s out
      (a.andThen fun value stop _ =>
        .matched value stop (sight.bindings.insert label (.held value))) := by
  cases h with
  | cut log => exact .cut log
  | failed log kept result back => exact .failed log kept result back
  | @matched s' events value after log kept result slots held since =>
    simp only [Attempt.andThen, Attempt.matched, ← Sight.bindings_insert sight label slot]
    exact .matched (log.append (logged_nil rfl)) kept result (Sight.slots_insert ..)
      ((kept.held hs).insert_held label (Nat.lt_succ_self slot) result)
      (sight.since_insert label _)

theorem named {expected : Nat}
    (h : Follows sight labels env slot start { s with silent := s.silent + 1 }
      (body.run tables rt n { s with silent := s.silent + 1 }) a) :
    Follows sight labels env slot start s
      ((Template.named slot expected body).run tables rt n s)
      (a.orElse ⟨.failed, [(s.silent, .reported (tables.descriptionAt expected))]⟩) := by
  have hrun : (Template.named slot expected body).run tables rt n s =
      andThen ((all [instr .unmute, branch (.failed slot) [.assign slot (.failure expected)]
        []]).run tables rt n) (body.run tables rt n { s with silent := s.silent + 1 }) := rfl
  rw [hrun]
  generalize body.run tables rt n { s with silent := s.silent + 1 } = out at h
  cases h with
  | cut log => exact .cut log
  | @failed s' events log kept result back =>
    have hsilent : s'.silent - 1 = s.silent := by
      rw [kept.silent]
      exact Int.add_sub_cancel s.silent 1
    have htail : (all [instr .unmute, branch (.failed slot) [.assign slot (.failure expected)]
        []]).run tables rt n s' = (.done, (State.record { s' with silent := s'.silent - 1 }
          (.reported (tables.descriptionAt expected))).assign slot none) := by
      simp [result]
    rw [andThen, htail]
    have hreport := logged_record (s := { s' with silent := s'.silent - 1 }) hsilent
      (.reported (tables.descriptionAt expected))
    have hkept : Kept slot start s { s' with silent := s'.silent - 1 } :=
      ⟨kept.results, kept.positions, hsilent⟩
    exact .failed (log.append hreport) ((hkept.record _).assign none) (State.assign_self ..) back
  | @matched s' events value after log kept result slots held since =>
    have hsilent : s'.silent - 1 = s.silent := by
      rw [kept.silent]
      exact Int.add_sub_cancel s.silent 1
    have htail : (all [instr .unmute, branch (.failed slot) [.assign slot (.failure expected)]
        []]).run tables rt n s' = (.done, { s' with silent := s'.silent - 1 }) := by
      simp [result]
    rw [andThen, htail]
    exact .matched log ⟨kept.results, kept.positions, hsilent⟩ result slots held since

theorem text (hs : sight.Held slot s)
    (h : Follows sight labels env slot (start + 1) (s.save start)
      (body.run tables rt n (s.save start)) a) :
    Follows sight [] sight.slots slot start s ((Template.text slot start body).run tables rt n s)
      (a.andThen fun _ stop _ => .matched (.text s.current stop) stop sight.bindings) := by
  have hrun : (Template.text slot start body).run tables rt n s =
      andThen ((all [branch (.matched slot) [.free slot, .assign slot (.matchedText start)]
        []]).run tables rt n) (body.run tables rt n (s.save start)) := rfl
  rw [hrun]
  generalize body.run tables rt n (s.save start) = out at h
  cases h with
  | cut log => exact .cut log
  | failed log kept result back =>
    simp only [andThen, Code.all, Code.run_append, Code.run, Condition.run, result]
    exact .failed log kept.of_save result back
  | @matched s' events value after log kept result slots held since =>
    have htail : (all [branch (.matched slot) [.free slot, .assign slot (.matchedText start)]
        []]).run tables rt n s' = (.done, s'.assign slot (some (.text s.current s'.current))) := by
      simp [result, kept.saved]
    rw [andThen, htail]
    have hkept := kept.of_save.assign (some (.text s.current s'.current))
    exact .matched (log.append (logged_nil rfl)) hkept (s'.assign_self ..) rfl (hkept.held hs)
      (sight.since_refl [])

theorem optional (hs : sight.Held slot s)
    (h : Follows sight labels env slot start s (body.run tables rt n s) a) :
    Follows sight [] sight.slots slot start s ((Template.optional slot body).run tables rt n s)
      ((a.inScope sight.bindings).orElse (.matched .nil s.current sight.bindings)) := by
  have hrun : (Template.optional slot body).run tables rt n s =
      andThen ((all [guard (.failed slot) (.assign slot .noMatch)]).run tables rt n)
        (body.run tables rt n s) := rfl
  rw [hrun]
  generalize body.run tables rt n s = out at h
  cases h with
  | cut log => exact .cut log
  | @failed s' events log kept result back =>
    have htail : (all [guard (.failed slot) (.assign slot .noMatch)]).run tables rt n s' =
        (.done, s'.assign slot (some .nil)) := by
      simp [result]
    rw [andThen, htail, ← back]
    have hkept := kept.assign (some .nil)
    exact .matched (log.append (logged_nil rfl)) hkept (s'.assign_self ..) rfl (hkept.held hs)
      (sight.since_refl [])
  | @matched s' events value after log kept result slots held since =>
    have htail : (all [guard (.failed slot) (.assign slot .noMatch)]).run tables rt n s' =
        (.done, s') := by
      simp [result]
    rw [andThen, htail]
    exact .matched (log.append (logged_nil rfl)) kept result rfl (kept.held hs)
      (sight.since_refl [])

theorem action {code : UserCode} {call : Call} (hs : sight.Held slot s)
    (hf : tables.actionAt call.index = Session.functionOf code env.keys)
    (hargs : call.args = env.values)
    (h : Follows sight labels env slot (start + 1) (s.save start)
      (body.run tables rt n (s.save start)) a) :
    Follows sight [] sight.slots slot start s
      ((Template.action slot start call body).run tables rt n s)
      (a.andThen fun value stop inside =>
        ⟨.matched value stop sight.bindings, Event.ofAction s.silent (some code) inside⟩) := by
  have hrun : (Template.action slot start call body).run tables rt n s =
      andThen ((all [branch (.matched slot) [.act call] []]).run tables rt n)
        (body.run tables rt n (s.save start)) := rfl
  rw [hrun]
  generalize body.run tables rt n (s.save start) = out at h
  cases h with
  | cut log => exact .cut log
  | failed log kept result back =>
    simp only [andThen, Code.all, Code.run_append, Code.run, Condition.run, result]
    exact .failed log kept.of_save result back
  | @matched s' events value after log kept result slots held since =>
    have htail : (all [branch (.matched slot) [.act call] []]).run tables rt n s' =
        (.done, s'.record (.acted (Session.functionOf code after.bindings.keys)
          (s'.args after.slots.values))) := by
      simp [result, hf, hargs, slots]
    rw [andThen, htail]
    have hkept := kept.of_save.record (.acted (Session.functionOf code after.bindings.keys)
      (s'.args after.slots.values))
    have hact : Logged (Event.ofAction s.silent (some code) after.bindings) s' _ :=
      logged_record kept.silent (.acted (Session.functionOf code after.bindings.keys) held.carried)
    exact .matched (log.append hact) hkept result rfl (hkept.held hs) (sight.since_refl [])

theorem lookahead (negated : Bool) (hs : sight.Held slot s)
    (h : Follows sight labels env slot (start + 1)
      { s.save start with silent := s.silent + 1 }
      (body.run tables rt n { s.save start with silent := s.silent + 1 }) a) :
    Follows sight [] sight.slots slot start s
      ((Template.lookahead negated slot start body).run tables rt n s)
      (a.look negated s.current sight.bindings) := by
  have hrun : (Template.lookahead negated slot start body).run tables rt n s =
      andThen ((if negated then branch (.failed slot) [.rewind start, .assign slot .noMatch]
          [.free slot, .rewind start, .assign slot .failed]
        else branch (.matched slot) [.free slot, .rewind start, .assign slot .noMatch]
          []).run tables rt n)
        (andThen (fun s' => (.done, { s' with silent := s'.silent - 1 }))
          (body.run tables rt n { s.save start with silent := s.silent + 1 })) := by
    rfl
  rw [hrun]
  generalize body.run tables rt n { s.save start with silent := s.silent + 1 } = out at h
  -- Back at the old level of silence, what was live before is as it was.
  have unmuted : ∀ {s' : State Pos},
      Kept slot (start + 1) { s.save start with silent := s.silent + 1 } s' →
      Kept slot start s { s' with silent := s'.silent - 1 } ∧ s'.positions start = s.current := by
    intro s' kept
    have hsilent : s'.silent - 1 = s.silent := by
      rw [kept.silent]
      exact Int.add_sub_cancel s.silent 1
    have hkept : Kept slot (start + 1) (s.save start) { s' with silent := s'.silent - 1 } :=
      ⟨kept.results, kept.positions, hsilent⟩
    exact ⟨hkept.of_save, hkept.saved⟩
  -- Both ways to look end in a rewind.
  have rewound : ∀ {s' : State Pos} {events : List (Int × Event (Binding Pos))} result,
      Kept slot start s { s' with silent := s'.silent - 1 } → Logged events s s' →
      Follows sight [] sight.slots slot start s
        (.done, State.assign { s' with silent := s'.silent - 1, current := s.current } slot result)
        ⟨match result with
          | none => .failed
          | some value => .matched value s.current sight.bindings, events⟩ := by
    intro s' events result hkept hlog
    have hback : Kept slot start s
        { s' with silent := s'.silent - 1, current := s.current } :=
      ⟨hkept.results, hkept.positions, hkept.silent⟩
    have hend := hback.assign result
    cases result with
    | none => exact .failed hlog hend (State.assign_self ..) rfl
    | some value =>
      exact .matched hlog hend (State.assign_self ..) rfl (hend.held hs) (sight.since_refl [])
  cases h with
  | cut log => exact .cut log
  | @failed s' events log kept result back =>
    obtain ⟨hkept, hsaved⟩ := unmuted kept
    cases negated with
    | false =>
      simp only [andThen, Bool.false_eq_true, if_false, Code.run, Condition.run, result,
        Option.isSome_none, Instruction.runAll]
      exact .failed log hkept result back
    | true =>
      simp only [andThen, if_true, Code.run, Condition.run, result, Option.isNone_none,
        Instruction.runAll, Instruction.run, Operand.run, hsaved]
      exact rewound (some .nil) hkept log
  | @matched s' events value after log kept result slots held since =>
    obtain ⟨hkept, hsaved⟩ := unmuted kept
    cases negated with
    | false =>
      simp only [andThen, Bool.false_eq_true, if_false, Code.run, Condition.run, result,
        Option.isSome_some, if_true, Instruction.runAll, Instruction.run, Operand.run, hsaved]
      exact rewound (some .nil) hkept log
    | true =>
      simp only [andThen, if_true, Code.run, Condition.run, result, Option.isNone_some,
        Bool.false_eq_true, if_false, Instruction.runAll, Instruction.run, Operand.run, hsaved]
      exact rewound none hkept log

end Follows

section Leaves

variable {tables : Session} {rt : Runtime Pos} {n : Nat} {sight : Sight Pos} {slot start : Nat}
  {s : State Pos}

theorem Follows.scanned {operand : Operand} {matcher : Matcher} (hs : sight.Held slot s)
    (hrun : operand.run tables rt s = s.scan rt matcher) :
    Follows sight [] sight.slots slot start s
      ((instr (.assign slot operand)).run tables rt n s)
      (rt.attempt s.silent sight.bindings matcher s.current) := by
  have hlog := logged_record (s := s) rfl (Event.Made.scanned matcher)
  simp only [Code.run, Instruction.run, hrun, State.scan, Runtime.attempt]
  cases hscan : rt.scan matcher s.current with
  | none =>
    have hkept := ((Kept.refl slot start s).record (.scanned matcher)).assign none
    simp only [State.record, hscan]
    exact .failed hlog hkept (State.assign_self ..) rfl
  | some found =>
    obtain ⟨value, stop⟩ := found
    have hmoved : Kept slot start s { s.record (.scanned matcher) with current := stop } :=
      ⟨fun _ _ => rfl, fun _ _ => rfl, rfl⟩
    have hkept := hmoved.assign (some value)
    simp only [State.record, hscan]
    exact .matched hlog hkept (State.assign_self ..) rfl (hkept.held hs) (sight.since_refl [])

theorem Follows.predicate (negated : Bool) {code : UserCode} {call : Call}
    (hs : sight.Held slot s)
    (hf : tables.predicateAt call.index = Session.functionOf code sight.slots.keys)
    (hargs : call.args = sight.slots.values) :
    Follows sight [] sight.slots slot start s
      ((Template.predicate negated slot call).run tables rt n s)
      ⟨if rt.holds (Session.functionOf code sight.bindings.keys) s.current = negated then .failed
        else .matched .nil s.current sight.bindings,
        [(s.silent, .asked (Session.functionOf code sight.bindings.keys)
          sight.bindings.values)]⟩ := by
  have hlog := logged_record (s := s) rfl
    (Event.Made.asked (Session.functionOf code sight.slots.keys) hs.carried)
  have hkept := (Kept.refl slot start s).record
    (.asked (Session.functionOf code sight.slots.keys) (s.args sight.slots.values))
  have hrun : (Template.predicate negated slot call).run tables rt n s =
      (.done, (s.record (.asked (Session.functionOf code sight.slots.keys)
        (s.args sight.slots.values))).assign slot
          (if rt.holds (Session.functionOf code sight.slots.keys) s.current = negated then none
            else some .nil)) := by
    cases negated <;>
      cases h : rt.holds (Session.functionOf code sight.slots.keys) s.current <;>
      simp [Template.predicate, hf, hargs, h]
  rw [Sight.keys_bindings, hrun]
  split
  · exact .failed hlog (hkept.assign none) (State.assign_self ..) rfl
  · have hend := hkept.assign (some .nil)
    exact .matched hlog hend (State.assign_self ..) rfl (hend.held hs) (sight.since_refl [])

end Leaves

/-- A run from `s` gathers what an attempt gathers, in the array at `slot`. -/
inductive Gathers (bindings : Bindings Pos) (slot start : Nat) (s : State Pos) :
    Ending × State Pos → Attempt Pos (List (Value Pos)) → Prop where
  | cut {s' : State Pos} {events : List (Int × Event (Binding Pos))} (log : Logged events s s') :
      Gathers bindings slot start s (.cut, s') ⟨.cut, events⟩
  | matched {s' : State Pos} {events : List (Int × Event (Binding Pos))}
      {items : List (Value Pos)} (log : Logged events s s') (kept : Kept slot start s s')
      (result : s'.results slot = some (.array (items.map some))) :
      Gathers bindings slot start s (.done, s') ⟨.matched items s'.current bindings, events⟩

theorem Gathers.after {bindings : Bindings Pos} {slot start : Nat} {s s' : State Pos}
    {out : Ending × State Pos} {a : Attempt Pos (List (Value Pos))}
    {events : List (Int × Event (Binding Pos))} (hkept : Kept slot start s s')
    (hlog : Logged events s s') (h : Gathers bindings slot start s' out a) :
    Gathers bindings slot start s out ⟨a.outcome, events ++ a.events⟩ := by
  cases h with
  | cut log => exact .cut (hlog.append log)
  | matched log kept result => exact .matched (hlog.append log) (hkept.trans kept) result

section Gathering

variable {tables : Session} {rt : Runtime Pos} {n : Nat} {sight : Sight Pos}
  {labels : List String} {env : Env} {slot start : Nat} {s : State Pos} {body : Code}
  {most : Option UInt32}

theorem run_round_of_full (tables : Session) (rt : Runtime Pos) (n : Nat) (body : Code)
    (h : Template.isFull most (Value.count (s.results slot)) = true) :
    (Template.round most slot body).run tables rt n s = (.left, s) := by
  cases most with
  | none => cases h
  | some max => simp [Template.round, show max.toNat ≤ _ from of_decide_eq_true h]

theorem run_round (tables : Session) (rt : Runtime Pos) (n : Nat) (body : Code)
    (h : Template.isFull most (Value.count (s.results slot)) = false) :
    (Template.round most slot body).run tables rt n s =
      andThen ((all [guard (.failed (slot + 1)) .leave,
        instr (.append slot (slot + 1))]).run tables rt n) (body.run tables rt n s) := by
  cases most with
  | none => rfl
  | some max =>
    have hlt : ¬ max.toNat ≤ Value.count (s.results slot) := of_decide_eq_false h
    simp [Template.round, hlt]

theorem rounds_gather {item : Pos → Attempt Pos (Value Pos)} {level : Int}
    (hbody : ∀ s : State Pos, sight.Held (slot + 1) s → s.silent = level →
      Follows sight labels env (slot + 1) start s (body.run tables rt n s) (item s.current))
    (bindings : Bindings Pos) (k : Nat) (items : List (Value Pos)) (s : State Pos)
    (hs : sight.Held slot s) (hlevel : s.silent = level)
    (harray : s.results slot = some (.array (items.map some))) :
    Gathers bindings slot start s
      (rounds ((Template.round most slot body).run tables rt n) k s)
      (Attempt.gather most bindings item k items s.current) := by
  induction k generalizing items s with
  | zero => exact .cut (logged_nil rfl)
  | succ k ih =>
    have hcount : Value.count (s.results slot) = items.length := by
      simp [harray, Value.count]
    cases hfull : Template.isFull most items.length with
    | true =>
      have hround := run_round_of_full tables rt n body (hcount ▸ hfull)
      simp only [Template.isFull] at hfull
      simp only [rounds, hround, Attempt.gather, hfull, if_true]
      exact .matched (logged_nil rfl) (.refl ..) harray
    | false =>
      have hround := run_round tables rt n body (hcount ▸ hfull)
      simp only [Template.isFull] at hfull
      simp only [rounds, hround, Attempt.gather, hfull, Bool.false_eq_true, if_false]
      have h := hbody s (hs.mono (Nat.le_succ slot)) hlevel
      generalize body.run tables rt n s = out at h
      generalize item s.current = a at h
      cases h with
      | cut log => exact .cut log
      | @failed s' events log kept result back =>
        have htail : (all [guard (.failed (slot + 1)) .leave,
            instr (.append slot (slot + 1))]).run tables rt n s' = (.left, s') := by
          simp [result]
        simp only [andThen, htail, ← back]
        exact .matched log (kept.mono (Nat.le_succ slot) (Nat.le_refl start))
          ((kept.results slot (Nat.lt_succ_self slot)).trans harray)
      | @matched s' events value after log kept result slots held since =>
        have hkept := kept.mono (Nat.le_succ slot) (Nat.le_refl start)
        have hbefore := (kept.results slot (Nat.lt_succ_self slot)).trans harray
        have htail : (all [guard (.failed (slot + 1)) .leave,
            instr (.append slot (slot + 1))]).run tables rt n s' =
            (.done, s'.assign slot (some (.array ((items ++ [value]).map some)))) := by
          simp [result, hbefore, Value.push]
        simp only [andThen, htail]
        -- The next round starts from the longer array.
        have hend := hkept.assign (some (.array ((items ++ [value]).map some)))
        have hnext := ih (items ++ [value]) (s'.assign slot _) (hend.held_same hs)
          (hend.silent.trans hlevel) (s'.assign_self ..)
        exact hnext.after hend log

theorem run_gather (tables : Session) (rt : Runtime Pos) (n : Nat) (body : Code) :
    (Template.gather most slot body).run tables rt n s =
      rounds ((Template.round most slot body).run tables rt n) n
        (s.assign slot (some (.array []))) := by
  have hrun : (Template.gather most slot body).run tables rt n s =
      andThen (fun s => (.done, s)) (rounds ((Template.round most slot body).run tables rt n) n
        (s.assign slot (some (.array [])))) := rfl
  rw [hrun, andThen_done]

/-- From the empty array on. -/
theorem gather_gathers {item : Pos → Attempt Pos (Value Pos)} (s : State Pos)
    (hs : sight.Held slot s)
    (hbody : ∀ s' : State Pos, sight.Held (slot + 1) s' → s'.silent = s.silent →
      Follows sight labels env (slot + 1) start s' (body.run tables rt n s') (item s'.current))
    (bindings : Bindings Pos) :
    Gathers bindings slot start s ((Template.gather most slot body).run tables rt n s)
      (Attempt.gather most bindings item n [] s.current) := by
  rw [run_gather]
  have hkept : Kept slot start s (s.assign slot (some (.array []))) := (Kept.refl ..).assign _
  exact (rounds_gather hbody bindings n [] (s.assign slot (some (.array [])))
    (hkept.held_same hs) rfl (s.assign_self ..)).after hkept (logged_nil rfl)

theorem Follows.repeated {item : Pos → Attempt Pos (Value Pos)} (quantifier : Quantifier)
    (hs : sight.Held slot s)
    (hbody : ∀ s' : State Pos, sight.Held (slot + 1) s' → s'.silent = s.silent →
      Follows sight labels env (slot + 1) (if 0 < quantifier.least then start + 1 else start) s'
        (body.run tables rt n s') (item s'.current)) :
    Follows sight [] sight.slots slot start s
      ((Template.repeated quantifier slot start body).run tables rt n s)
      ((Attempt.gather quantifier.most sight.bindings item n [] s.current).andThen
        fun items stop _ =>
          if items.length < quantifier.least.toNat then .failed
          else .matched (.array (items.map some)) stop sight.bindings) := by
  unfold Template.repeated
  by_cases hleast : 0 < quantifier.least
  · simp only [if_pos hleast] at hbody ⊢
    have hrun : (instr (.save start) ++ Template.gather quantifier.most slot body ++
        Template.enough quantifier.least slot start).run tables rt n s =
        andThen ((Template.enough quantifier.least slot start).run tables rt n)
          ((Template.gather quantifier.most slot body).run tables rt n (s.save start)) := rfl
    rw [hrun]
    have h : Gathers sight.bindings slot (start + 1) (s.save start) _
        (Attempt.gather quantifier.most sight.bindings item n [] s.current) :=
      gather_gathers (s.save start) hs hbody sight.bindings
    generalize (Template.gather quantifier.most slot body).run tables rt n (s.save start) = out at h
    generalize Attempt.gather quantifier.most sight.bindings item n [] s.current = a at h
    cases h with
    | cut log => exact .cut log
    | @matched s' events items log kept result =>
      have hcount : Value.count (s'.results slot) = items.length := by
        simp [result, Value.count]
      by_cases hshort : items.length < quantifier.least.toNat
      · have htail : (Template.enough quantifier.least slot start).run tables rt n s' =
            (.done, State.assign { s' with current := s.current } slot none) := by
          simp [Template.enough, hcount, hshort, kept.saved]
        have hback : Kept slot start s { s' with current := s.current } :=
          ⟨kept.of_save.results, kept.of_save.positions, kept.of_save.silent⟩
        simp only [andThen, htail, Attempt.andThen, if_pos hshort]
        exact .failed (log.append (logged_nil rfl)) (hback.assign none) (State.assign_self ..) rfl
      · have htail : (Template.enough quantifier.least slot start).run tables rt n s' =
            (.done, s') := by
          simp [Template.enough, hcount, hshort]
        simp only [andThen, htail, Attempt.andThen, if_neg hshort]
        exact .matched (log.append (logged_nil rfl)) kept.of_save result rfl
          (kept.of_save.held hs) (sight.since_refl [])
  · simp only [if_neg hleast] at hbody ⊢
    have h : Gathers sight.bindings slot start s _
        (Attempt.gather quantifier.most sight.bindings item n [] s.current) :=
      gather_gathers s hs hbody sight.bindings
    generalize (Template.gather quantifier.most slot body).run tables rt n s = out at h
    generalize Attempt.gather quantifier.most sight.bindings item n [] s.current = a at h
    cases h with
    | cut log => exact .cut log
    | @matched s' events items log kept result =>
      have hzero : ¬ items.length < quantifier.least.toNat := by
        have hle : quantifier.least.toNat = 0 := Nat.eq_zero_of_not_pos hleast
        omega
      simp only [Attempt.andThen, if_neg hzero]
      exact .matched (log.append (logged_nil rfl)) kept result rfl (kept.held hs)
        (sight.since_refl [])

end Gathering

/-- A run from `s` follows an attempt with the elements after the first `done` of a sequence: their
results are in a row, or the sequence is left with a failure. -/
inductive FollowsAll (sight : Sight Pos) (labels : List String) (env : Env)
    (count slot start done : Nat) (s : State Pos) :
    Ending × State Pos → Attempt Pos (List (Value Pos)) → Prop where
  | cut {s' : State Pos} {events : List (Int × Event (Binding Pos))} (log : Logged events s s') :
      FollowsAll sight labels env count slot start done s (.cut, s') ⟨.cut, events⟩
  | failed {s' : State Pos} {events : List (Int × Event (Binding Pos))}
      (log : Logged events s s') (kept : Kept slot (start + 1) s s')
      (result : s'.results slot = none) (back : s'.current = s.positions start) :
      FollowsAll sight labels env count slot start done s (.left, s') ⟨.failed, events⟩
  | matched {s' : State Pos} {events : List (Int × Event (Binding Pos))}
      {values : List (Value Pos)} {after : Sight Pos} (log : Logged events s s')
      (kept : Kept (slot + done) (start + 1) s s')
      (results : s'.args (List.range' (slot + done) count) = values.map some)
      (slots : after.slots = env) (held : after.Held (slot + done + count) s')
      (since : sight.Since labels after) :
      FollowsAll sight labels env count slot start done s (.done, s')
        ⟨.matched values s'.current after.bindings, events⟩

section Sequences

variable {tables : Session} {rt : Runtime Pos} {n : Nat} {sight : Sight Pos}
  {labels : List String} {env : Env} {slot start : Nat} {s : State Pos}

theorem runAll_free (slots : List Nat) (rest : List Instruction) (s : State Pos) :
    Instruction.runAll tables rt (slots.map .free ++ rest) s =
      Instruction.runAll tables rt rest s := by
  induction slots with
  | nil => rfl
  | cons first others ih => simpa using ih

theorem run_element {body : Code} {done : Nat} {s' : State Pos}
    (hbody : body.run tables rt n s = (.done, s')) :
    (Template.element done slot start body).run tables rt n s =
      match s'.results (slot + done) with
      | none => (.left, State.assign { s' with current := s'.positions start } slot none)
      | some _ => (.done, s') := by
  cases h : s'.results (slot + done) with
  | none =>
    simp only [Template.element, Code.all, Code.run_append, Code.run, andThen, hbody,
      Condition.run, h, Option.isNone_none, if_true, runAll_free, Instruction.runAll,
      Instruction.run, Operand.run]
  | some value => simp [Template.element, hbody, h]

theorem run_element_cut {body : Code} {done : Nat} {s' : State Pos}
    (hbody : body.run tables rt n s = (.cut, s')) :
    (Template.element done slot start body).run tables rt n s = (.cut, s') := by
  simp [Template.element, hbody]

theorem FollowsAll.cons {body more : Code} {done count : Nat} {labels' : List String} {env' : Env}
    {a : Attempt Pos (Value Pos)} {next : Bindings Pos → Pos → Attempt Pos (List (Value Pos))}
    (hbody : Follows sight labels env (slot + done) (start + 1) s (body.run tables rt n s) a)
    (hmore : ∀ (s' : State Pos) (after : Sight Pos), after.slots = env →
      after.Held (slot + done + 1) s' → s'.silent = s.silent →
      FollowsAll after labels' env' count slot start (done + 1) s' (more.run tables rt n s')
        (next after.bindings s'.current)) :
    FollowsAll sight (labels ++ labels') env' (count + 1) slot start done s
      ((Template.element done slot start body ++ more).run tables rt n s)
      (a.andThen fun value stop inside => (next inside stop).andThen fun values stop inside =>
        .matched (value :: values) stop inside) := by
  rw [Code.run_append]
  generalize hout : body.run tables rt n s = out at hbody
  cases hbody with
  | cut log =>
    rw [run_element_cut hout]
    exact .cut log
  | @failed s' events log kept result back =>
    rw [run_element hout, result]
    have hback : Kept slot (start + 1) s { s' with current := s'.positions start } :=
      ⟨(kept.mono (Nat.le_add_right slot done) (Nat.le_refl _)).results, kept.positions,
        kept.silent⟩
    exact .failed log (hback.assign none) (State.assign_self ..)
      (kept.positions start (Nat.lt_succ_self start))
  | @matched s' events value after log kept result slots held since =>
    rw [run_element hout, result]
    have h := hmore s' after slots held kept.silent
    simp only [andThen, Attempt.andThen]
    generalize more.run tables rt n s' = out' at h
    generalize next after.bindings s'.current = b at h
    have hbelow := kept.mono (Nat.le_add_right slot done) (Nat.le_refl (start + 1))
    cases h with
    | cut log' => exact .cut (log.append log')
    | failed log' kept' result' back' =>
      exact .failed (log.append log') (hbelow.trans kept') result'
        (back'.trans (kept.positions start (Nat.lt_succ_self start)))
    | @matched s'' events' values after' log' kept' results' slots' held' since' =>
      have hlog := log.append (log'.append (logged_nil rfl))
      have hkept := kept.trans (kept'.mono (Nat.le_succ (slot + done)) (Nat.le_refl (start + 1)))
      refine .matched hlog hkept ?_ slots' ?_ (since.trans since')
      · have hfirst : s''.results (slot + done) = some value :=
          (kept'.results (slot + done) (Nat.lt_succ_self _)).trans result
        rw [List.range'_succ]
        simp only [State.args, List.map_cons, hfirst]
        exact congrArg (some value :: ·) results'
      · have hcount : slot + (done + 1) + count = slot + done + (count + 1) := by omega
        exact hcount ▸ held'

/-- The call of an action changes nothing but the log. -/
theorem run_pendingCall (tables : Session) (rt : Runtime Pos) (n : Nat)
    {action : Option UserCode} {level : Int} {bound : Nat} (hs : sight.Held bound s)
    (hlevel : s.silent = level)
    (hf : ∀ code, action = some code →
      tables.actionAt (tables.actionCall code sight.slots).index =
        Session.functionOf code sight.slots.keys) :
    ∃ log, (tables.pendingCall action sight.slots).run tables rt n s =
        (.done, { s with log := log }) ∧
      Logged (Event.ofAction level action sight.bindings) s { s with log := log } := by
  cases action with
  | none => exact ⟨s.log, rfl, logged_nil rfl⟩
  | some code =>
    refine ⟨s.log ++ [(s.silent, .acted (Session.functionOf code sight.slots.keys)
      (s.args sight.slots.values))], ?_, ?_⟩
    · simp only [Session.pendingCall, Code.run, Instruction.run, hf code rfl]
      rfl
    · have hmade := Event.Made.acted (Session.functionOf code sight.slots.keys) hs.carried
      rw [← Sight.keys_bindings] at hmade ⊢
      exact logged_record hlevel hmade

theorem Follows.sequence {elements : Code} {count : Nat} {action : Option UserCode}
    {a : Attempt Pos (List (Value Pos))} (hs : sight.Held slot s)
    (hf : ∀ code, action = some code →
      tables.actionAt (tables.actionCall code env).index = Session.functionOf code env.keys)
    (h : FollowsAll sight labels env count slot start 0 (s.save start)
      (elements.run tables rt n (s.save start)) a) :
    Follows sight labels env slot start s
      ((Template.sequence count slot start (tables.pendingCall action env) elements).run
        tables rt n s)
      (a.andThen fun values stop inside =>
        ⟨.matched (.wrapped s.current stop (values.map some)) stop (inside.release labels),
          Event.ofAction s.silent action inside⟩) := by
  have hrun : (Template.sequence count slot start (tables.pendingCall action env) elements).run
      tables rt n s = landed (andThen ((all [tables.pendingCall action env,
        instr (.assign slot (.wrapped start (List.range' slot count)))]).run tables rt n)
          (elements.run tables rt n (s.save start))) := rfl
  rw [hrun]
  generalize elements.run tables rt n (s.save start) = out at h
  cases h with
  | cut log => exact .cut log
  | failed log kept result back =>
    exact .failed log kept.of_save result (back.trans (s.save_self start))
  | @matched s' events values after log kept results slots held since =>
    subst slots
    obtain ⟨log', hcall, hact⟩ := run_pendingCall tables rt n held kept.silent hf
    have hargs : State.args { s' with log := log' } (List.range' slot count) = values.map some :=
      results
    have hwrap : (all [tables.pendingCall action after.slots,
        instr (.assign slot (.wrapped start (List.range' slot count)))]).run tables rt n s' =
        (.done, State.assign { s' with log := log' } slot
          (some (.wrapped s.current s'.current (values.map some)))) := by
      simp [hcall, kept.saved, hargs]
    rw [andThen, hwrap]
    have hcalled : Kept slot start s { s' with log := log' } :=
      ⟨kept.of_save.results, kept.of_save.positions, kept.of_save.silent⟩
    have hend := hcalled.assign (some (.wrapped s.current s'.current (values.map some)))
    -- The slots of the labels inside are given back; those outside are below the sequence.
    have hheld := (hs.release since hend.results).mono (Nat.le_succ slot)
    simp only [Attempt.andThen, landed, ← Sight.bindings_release]
    exact .matched (log.append hact) hend (State.assign_self ..) (Sight.slots_release labels after)
      hheld (Sight.since_release since)

end Sequences

section Choices

variable {tables : Session} {rt : Runtime Pos} {n : Nat} {sight : Sight Pos}
  {labels : List String} {env : Env} {slot start : Nat} {s : State Pos}

theorem Follows.after {s' : State Pos} {out : Ending × State Pos} {a : Attempt Pos (Value Pos)}
    {events : List (Int × Event (Binding Pos))} (hkept : Kept slot start s s')
    (hlog : Logged events s s') (hback : s'.current = s.current)
    (h : Follows sight labels env slot start s' out a) :
    Follows sight labels env slot start s out ⟨a.outcome, events ++ a.events⟩ := by
  cases h with
  | cut log => exact .cut (hlog.append log)
  | failed log kept result back =>
    exact .failed (hlog.append log) (hkept.trans kept) result (back.trans hback)
  | matched log kept result slots held since =>
    exact .matched (hlog.append log) (hkept.trans kept) result slots held since

theorem Follows.landed_eq {out : Ending × State Pos} {a : Attempt Pos (Value Pos)}
    (h : Follows sight labels env slot start s out a) : landed out = out := by
  cases h <;> rfl

theorem Follows.alternative {body more : Code} {number : Nat} {a next : Attempt Pos (Value Pos)}
    (hs : sight.Held slot s)
    (hbody : Follows sight labels env slot start s (body.run tables rt n s) a)
    (hmore : ∀ s' : State Pos, sight.Held slot s' → s'.silent = s.silent →
      s'.current = s.current →
      Follows sight [] sight.slots slot start s' (landed (more.run tables rt n s')) next) :
    Follows sight [] sight.slots slot start s
      (landed ((Template.alternative number slot body ++ more).run tables rt n s))
      ((a.inScope sight.bindings).orElse next) := by
  have hrun : (Template.alternative number slot body ++ more).run tables rt n s =
      andThen (more.run tables rt n) (andThen ((all [guard (.matched slot) .leave,
        blank]).run tables rt n) (body.run tables rt n s)) := rfl
  rw [hrun]
  generalize body.run tables rt n s = out at hbody
  cases hbody with
  | cut log => exact .cut log
  | @failed s' events log kept result back =>
    have htail : (all [guard (.matched slot) .leave, blank]).run tables rt n s' = (.done, s') := by
      simp [result]
    simp only [andThen, htail]
    exact (hmore s' (kept.held_same hs) kept.silent back).after kept log back
  | @matched s' events value after log kept result slots held since =>
    have htail : (all [guard (.matched slot) .leave, blank]).run tables rt n s' = (.left, s') := by
      simp [result]
    simp only [andThen, htail]
    exact .matched (log.append (logged_nil rfl)) kept result rfl (kept.held hs)
      (sight.since_refl [])

theorem Attempt.orElse_failed {α : Type} (a : Attempt Pos α) : a.orElse .failed = a := by
  obtain ⟨outcome, events⟩ := a
  cases outcome <;> simp [orElse, failed]

end Choices

end Backtrack
