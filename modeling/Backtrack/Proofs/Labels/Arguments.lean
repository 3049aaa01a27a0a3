import Backtrack.Proofs.Execution.Preservation
import Backtrack.Proofs.Labels.Placement
import Backtrack.Proofs.Listing.Functions

/-!
# Arguments of user code

Main statement: where no user code has a released label in sight, it gets the labelled match for
every label whose expression is done. A held label is one whose slot is secured, whatever is run
next; a released label is one whose slot is not.
-/

namespace Backtrack

set_option autoImplicit false

variable {Pos : Type}

/-- Once the labelled expression is done, the argument is the labelled match. -/
def Binding.Delivered (binding : Binding Pos) (arg : Option (Value Pos)) : Prop :=
  ∀ value, binding.value? = some value → arg = some value

/-- However it goes on above `slot`, the slot `t` has this value. -/
def Secured (slot start : Nat) (s : State Pos) (t : Nat) (value : Value Pos) : Prop :=
  ∀ s', Kept (slot + 1) start s s' → s'.results t = some value

theorem Binding.Carried.delivered {binding : Binding Pos} {arg : Option (Value Pos)}
    (h : binding.Carried arg) (hb : binding.isReleased = false) : binding.Delivered arg := by
  intro value hvalue
  cases binding with
  | pending => cases hvalue
  | held found =>
    cases hvalue
    exact h
  | released found => cases hb

theorem forall₂_of_mem {α β : Type} {R S : α → β → Prop} {as : List α} {bs : List β}
    (h : List.Forall₂ R as bs) (hi : ∀ a ∈ as, ∀ b, R a b → S a b) : List.Forall₂ S as bs := by
  induction h with
  | nil => exact .nil
  | cons hfirst _ ih =>
    obtain ⟨hhead, htail⟩ := List.forall_mem_cons.mp hi
    exact .cons (hhead _ hfirst) (ih htail)

theorem Event.Made.delivered {event : Event (Binding Pos)} {call : Event (Option (Value Pos))}
    (h : event.Made Binding.Carried call) (hs : event.Settled) :
    event.Made Binding.Delivered call := by
  cases h with
  | scanned matcher => exact .scanned matcher
  | reported expected => exact .reported expected
  | asked function h =>
    exact .asked function (forall₂_of_mem h fun binding hmem _ hc => hc.delivered (hs binding hmem))
  | acted function h =>
    exact .acted function (forall₂_of_mem h fun binding hmem _ hc => hc.delivered (hs binding hmem))

theorem Follows.log {sight : Sight Pos} {labels : List String} {env : Env} {slot start : Nat}
    {s : State Pos} {out : Ending × State Pos} {a : Attempt Pos (Value Pos)}
    (h : Follows sight labels env slot start s out a) : Logged a.events s out.2 := by
  cases h with
  | cut log => exact log
  | failed log kept result back => exact log
  | matched log kept result slots held since => exact log

theorem Follows.of_matched {sight : Sight Pos} {labels : List String} {env : Env}
    {slot start : Nat} {s : State Pos} {out : Ending × State Pos} {a : Attempt Pos (Value Pos)}
    (h : Follows sight labels env slot start s out a) {value : Value Pos} {stop : Pos}
    {bindings : Bindings Pos} (hmatched : a.outcome = .matched value stop bindings) :
    ∃ s', out = (.done, s') ∧ s'.results slot = some value := by
  cases h with
  | cut log => cases hmatched
  | failed log kept result back => cases hmatched
  | matched log kept result slots held since =>
    cases hmatched
    exact ⟨_, rfl, result⟩

/-- A placed label is held exactly when its slot is secured. -/
theorem Binding.Placed.secured_iff {slot start t : Nat} {whole value : Value Pos} {s : State Pos}
    {binding : Binding Pos} (h : binding.Placed slot whole t)
    (hv : binding.value? = some value) (hwhole : s.results slot = some whole) :
    Secured slot start s t value ↔ binding = .held value := by
  cases binding with
  | pending => cases hv
  | held found =>
    cases hv
    obtain ⟨rfl, rfl⟩ := h
    refine ⟨fun _ => rfl, fun _ => ?_⟩
    intro s' hkept
    exact (hkept.results t (Nat.lt_succ_self t)).trans hwhole
  | released found =>
    cases hv
    refine ⟨fun hsecured => ?_, nofun⟩
    rcases h with habove | ⟨rfl, hinside⟩
    · -- Whatever is run next may assign the slot.
      have hkept : Kept (slot + 1) start s (s.assign t none) := by
        refine ⟨?_, fun _ _ => rfl, rfl⟩
        intro i hi
        exact s.assign_of_ne none (by omega)
      have hnone := hsecured _ hkept
      rw [State.assign_self] at hnone
      cases hnone
    · have hsame := hsecured s (.refl ..)
      rw [hwhole] at hsame
      cases hsame
      exact absurd rfl hinside.ne

/-- A tidy expression delivers the labelled matches, wherever its code stands. -/
theorem Expr.lower_delivers {tables : Session} {e : Expr} {slot start : Nat}
    (hw : (e.lower tables ⟨slot, {}, none⟩ start).Within tables) (ht : e.tidy false [] = true)
    (rt : Runtime Pos) (n : Nat) (s : State Pos) :
    ∃ made, ((e.lower tables ⟨slot, {}, none⟩ start).run tables rt n s).2.log = s.log ++ made ∧
      List.Forall₂ (fun event call => event.1 = call.1 ∧ event.2.Made Binding.Delivered call.2)
        (e.attempt rt n s.silent {} none s.current).events made := by
  have hfollows := e.simulated tables rt n slot start none {} s nofun hw
  have hclean := e.settles rt n s.silent {} none s.current [] ⟨List.nodup_nil, nofun⟩ ht
  obtain ⟨made, hlog, hmade⟩ := hfollows.log
  refine ⟨made, hlog, forall₂_of_mem hmade ?_⟩
  intro event hmem call hcall
  exact ⟨hcall.1, hcall.2.delivered (hclean.events event hmem)⟩

/-- After a match, the labels that are held are those whose slots are secured. -/
theorem Expr.lower_secures {tables : Session} {e : Expr} {slot start : Nat}
    (hw : (e.lower tables ⟨slot, {}, none⟩ start).Within tables) (rt : Runtime Pos) (n : Nat)
    (s : State Pos) {value : Value Pos} {stop : Pos} {bindings : Bindings Pos}
    (hmatched : (e.attempt rt n s.silent {} none s.current).outcome =
      .matched value stop bindings) :
    ∃ (s' : State Pos) (sight : Sight Pos),
      (e.lower tables ⟨slot, {}, none⟩ start).run tables rt n s = (.done, s') ∧
      sight.slots = e.envAfter slot {} ∧ sight.bindings = bindings ∧
      ∀ label t binding found, (label, t, binding) ∈ sight.entries →
        binding.value? = some found →
        (Secured slot start s' t found ↔ binding = .held found) := by
  have hfollows := e.simulated tables rt n slot start none {} s nofun hw
  obtain ⟨sight, hslots, hbindings, -, hsight⟩ :=
    e.places rt n slot s.silent none {} s.current value stop bindings List.nodup_nil hmatched
  obtain ⟨s', hrun, hresult⟩ := hfollows.of_matched hmatched
  refine ⟨s', sight, hrun, hslots, hbindings, ?_⟩
  intro label t binding found hmem hfound
  rcases hsight _ hmem with ⟨-, hplaced⟩ | ⟨-, hold⟩
  · exact hplaced.secured_iff hfound hresult
  · exact absurd hold List.not_mem_nil

/-- The calls of a run of the printed function are those of the attempt, and pass the labelled
match for every label whose expression is done, if the rule's expression is tidy. When the lines
printed for any expression have come to its match, the slots of the labels that are held keep the
labelled match whatever is run next, and those of the released labels do not. -/
theorem label_arguments (policy : Policy) (session : Session) (rule : Rule)
    {function : RuleFunction} {grown : Session}
    (hrule : session.compileRule policy rule = (.ok function, grown)) {tables : Session}
    (hext : grown.Extends tables) (rt : Runtime Pos) (n : Nat) (s : State Pos) :
    (∃ read, Listing.function? function.lines.toList = some read ∧
      (rule.expression.tidy false [] = true → ∃ made,
        (read.body.run tables rt n s).2.log = s.log ++ made ∧
        List.Forall₂ (fun event call => event.1 = call.1 ∧ event.2.Made Binding.Delivered call.2)
          (rule.expression.attempt rt n s.silent {} none s.current).events made)) ∧
    ∀ (cx : Context) (slot : Nat) (e : Expr) (w : Workspace) (code : Code) (env : Env)
      (w' : Workspace), w.results.live = slot →
      e.generate cx ⟨slot, {}, none⟩ w = .ok (code, env) w' → w'.toSession.Extends tables →
      ∀ (depth : Nat), ∃ read, Listing.code? (code.lines depth) = some read ∧
        ∀ (value : Value Pos) (stop : Pos) (bindings : Bindings Pos),
          (e.attempt rt n s.silent {} none s.current).outcome = .matched value stop bindings →
          ∃ (s' : State Pos) (sight : Sight Pos), read.run tables rt n s = (.done, s') ∧
            sight.slots = env ∧ sight.bindings = bindings ∧
            ∀ label t binding found, (label, t, binding) ∈ sight.entries →
              binding.value? = some found →
              (Secured slot w.positions.live s' t found ↔ binding = .held found) := by
  constructor
  · refine ⟨_, Session.function?_compileRule hrule, ?_⟩
    intro ht
    obtain ⟨hbody, hw⟩ := Session.codeOf_compileRule hrule hext
    rw [hbody] at hw
    rw [Code.run_plain, hbody]
    exact Expr.lower_delivers hw ht rt n s
  · intro cx slot e w code env w' hlive hgen hext' depth
    refine ⟨_, Listing.code?_lines code depth, ?_⟩
    intro value stop bindings hmatched
    rw [Code.run_plain]
    have hout := (e.lowers cx ⟨slot, {}, none⟩ w w.toSession w.positions.live
      ⟨rfl, hlive, rfl⟩).of_eq_ok hgen
    obtain ⟨rfl, grown', -, hat, hk⟩ := hout
    obtain rfl := hat.session_eq
    obtain ⟨rfl, hw⟩ := hk tables hext'
    exact Expr.lower_secures hw rt n s hmatched

/-- A label in a flat sequence, and user code after it. -/
theorem label_arguments_of_flat :
    let rule : Rule := ⟨"R", .sequence none [.labeled none "x" (.any none),
      .predicate none false ⟨"global", "return ok(x);"⟩], none⟩
    let rt : Runtime Nat := ⟨fun _ p => some (.token p, p + 1), fun _ _ => true⟩
    let s : State Nat := ⟨fun _ => none, fun _ => 0, 0, 0, []⟩
    let events : List (Int × Event (Binding Nat)) := [(0, .scanned .anyByte),
      (0, .asked ⟨"global", ["x"], "return ok(x);"⟩ [.held (.token 0)])]
    rule.expression.tidy false [] = true ∧
    ∃ function grown, ({} : Session).compileRule .strict rule = (.ok function, grown) ∧
      ∃ read, Listing.function? function.lines.toList = some read ∧
        ∃ made, (read.body.run grown rt 0 s).2.log = made ∧
          List.Forall₂ (fun event call => event.1 = call.1 ∧
            event.2.Made Binding.Delivered call.2) events made := by
  intro rule rt s events
  have hok : (({} : Session).compileRule .strict rule).1.isOk = true := by decide +kernel
  obtain ⟨function, grown, hrule⟩ := Session.eq_ok_of_isOk hok
  obtain ⟨⟨read, hread, hcalls⟩, -⟩ := label_arguments .strict {} rule hrule (.refl grown) rt 0 s
  exact ⟨rfl, function, grown, hrule, read, hread, hcalls rfl⟩

/-- A label in a sequence inside another one. User code after the inner sequence gets its value,
of which the labelled match is a part. -/
theorem nested_label_gets_whole :
    let rule : Rule := ⟨"R", .sequence none [.sequence none [.labeled none "x" (.any none)],
      .predicate none false ⟨"global", "return ok(x);"⟩], none⟩
    let rt : Runtime Nat := ⟨fun _ p => some (.token p, p + 1), fun _ _ => true⟩
    let s : State Nat := ⟨fun _ => none, fun _ => 0, 0, 0, []⟩
    ∃ function grown, ({} : Session).compileRule .strict rule = (.ok function, grown) ∧
      (rule.expression.attempt rt 0 s.silent {} none s.current).events =
        [(0, .scanned .anyByte),
          (0, .asked ⟨"global", ["x"], "return ok(x);"⟩ [.released (.token 0)])] ∧
      (∃ read, Listing.function? function.lines.toList = some read ∧
        (read.body.run grown rt 0 s).2.log =
          [(0, .scanned .anyByte),
            (0, .asked ⟨"global", ["x"], "return ok(x);"⟩
              [some (.wrapped 0 1 [some (.token 0)])])]) ∧
      ¬ Binding.Delivered (.released (.token 0)) (some (.wrapped 0 1 [some (.token 0)])) := by
  intro rule rt s
  have hok : (({} : Session).compileRule .strict rule).1.isOk = true := by decide +kernel
  obtain ⟨function, grown, hrule⟩ := Session.eq_ok_of_isOk hok
  obtain ⟨hbody, hw⟩ := Session.codeOf_compileRule hrule (.refl grown)
  have hindex : (grown.predicateCall ⟨"global", "return ok(x);"⟩ ⟨[("x", 0)]⟩).index <
      grown.predicates.length := by
    rw [hbody] at hw
    simp [rule, Expr.lower, Expr.lowerElements, Session.pendingCall, Code.Within,
      Instruction.Within, Operand.Within] at hw
    exact hw.1
  have hlog : (function.body.plain.run grown rt 0 s).2.log = [(0, .scanned .anyByte),
      (0, .asked (grown.predicateAt
        (grown.predicateCall ⟨"global", "return ok(x);"⟩ ⟨[("x", 0)]⟩).index)
        [some (.wrapped 0 1 [some (.token 0)])])] := by
    rw [Code.run_plain, hbody]
    rfl
  rw [Session.predicateAt_predicateCall hindex] at hlog
  refine ⟨function, grown, hrule, rfl, ⟨_, Session.function?_compileRule hrule, hlog⟩, ?_⟩
  intro h
  cases h (.token 0) rfl

end Backtrack
