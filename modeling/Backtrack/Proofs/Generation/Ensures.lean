import Backtrack.Proofs.Generation.Tables

/-!
# What a step of generation ensures

Every step either ends in its postcondition or is stopped by a warning. Each operation on the slot
stacks and on the tables has one law, so that nothing later looks inside them. No law has room for
an internal error.
-/

namespace Backtrack

set_option autoImplicit false

/-- A workspace by its tables and by how many slots of either sort are live. -/
structure Workspace.At (session : Session) (results positions : Nat) (w : Workspace) : Prop where
  session_eq : w.toSession = session
  results_live : w.results.live = results
  positions_live : w.positions.live = positions

/-- A workspace whose tables have grown out of a session, such that `known` holds of every session
that goes on from them. -/
def Workspace.Grown (session : Session) (results positions : Nat) (known : Session → Prop)
    (w : Workspace) : Prop :=
  ∃ grown, session.Extends grown ∧ w.At grown results positions ∧
    ∀ final, grown.Extends final → known final

theorem Workspace.Grown.results_live {session : Session} {results positions : Nat}
    {known : Session → Prop} {w : Workspace} (h : w.Grown session results positions known) :
    w.results.live = results := by
  obtain ⟨_, _, hat, _⟩ := h
  exact hat.results_live

namespace Gen

variable {α β : Type} {w : Workspace} {session : Session} {r p : Nat}

/-- From `w`, the step ends in `post` or is stopped by a warning. -/
def Ensures (x : Gen α) (w : Workspace) (post : α → Workspace → Prop) : Prop :=
  match x w with
  | .ok a w' => post a w'
  | .error error _ => ∃ diagnostic, error = .ofDiagnostic diagnostic

theorem ensures_of_ok {x : Gen α} {a : α} {w' : Workspace} {post : α → Workspace → Prop}
    (h : x w = .ok a w') (hp : post a w') : Ensures x w post := by
  simpa only [Ensures, h] using hp

theorem Ensures.of_eq_ok {x : Gen α} {post : α → Workspace → Prop} (h : Ensures x w post) {a : α}
    {w' : Workspace} (hx : x w = .ok a w') : post a w' := by
  simpa only [Ensures, hx] using h

theorem Ensures.not_internal {x : Gen α} {post : α → Workspace → Prop} (h : Ensures x w post)
    (cause : StackError) (w' : Workspace) : x w ≠ .error (.internal cause) w' := by
  intro hx
  simp [Ensures, hx, GenerateError.ofDiagnostic] at h

theorem ensures_pure {a : α} {post : α → Workspace → Prop} (hp : post a w) :
    Ensures (pure a) w post := hp

theorem Ensures.bind {x : Gen α} {f : α → Gen β} {mid : α → Workspace → Prop}
    {post : β → Workspace → Prop} (hx : Ensures x w mid)
    (hf : ∀ a w', mid a w' → Ensures (f a) w' post) : Ensures (x >>= f) w post := by
  simp only [Ensures] at hx hf ⊢
  change match EStateM.bind x f w with
    | .ok a w' => post a w'
    | .error error _ => ∃ diagnostic, error = .ofDiagnostic diagnostic
  unfold EStateM.bind
  cases hrun : x w with
  | ok a w' =>
    rw [hrun] at hx
    exact hf a w' hx
  | error error w' =>
    rw [hrun] at hx
    exact hx

theorem Ensures.map {x : Gen α} (f : α → β) {post : β → Workspace → Prop}
    (hx : Ensures x w fun a w' => post (f a) w') : Ensures (f <$> x) w post := by
  rw [map_eq_pure_bind]
  exact hx.bind fun a w' ha => ensures_pure ha

theorem Ensures.mono {x : Gen α} {mid post : α → Workspace → Prop} (hx : Ensures x w mid)
    (h : ∀ a w', mid a w' → post a w') : Ensures x w post := by
  simp only [Ensures] at hx ⊢
  split at hx
  · exact h _ _ hx
  · exact hx

theorem ensures_newResult (h : w.At session r p) :
    Ensures newResult w fun slot w' => slot = r ∧ w'.At session (r + 1) p :=
  ensures_of_ok rfl ⟨h.results_live, h.session_eq, congrArg (· + 1) h.results_live,
    h.positions_live⟩

theorem ensures_newPosition (h : w.At session r p) :
    Ensures newPosition w fun slot w' => slot = p ∧ w'.At session r (p + 1) :=
  ensures_of_ok rfl ⟨h.positions_live, h.session_eq, h.results_live,
    congrArg (· + 1) h.positions_live⟩

theorem popResult_eq (h : w.results.live = r + 1) :
    popResult w = .ok r { w with results := { w.results with live := r } } := by
  change EStateM.bind (ofExcept w.results.pop) _ w = _
  simp only [SlotStack.pop, h]
  rfl

/-- An assertion that holds, or that is not checked, does nothing. -/
theorem assertLive_eq {stack : Workspace → SlotStack} {expected : Nat}
    (h : (stack w).live = expected) : assertLive stack expected w = .ok () w := by
  have hc : (w.checked && (stack w).live != expected) = false := by simp [h]
  change (if (w.checked && (stack w).live != expected) = true then
    (throw (.internal ((stack w).mismatch expected)) : Gen PUnit) else pure ()) w = _
  rw [hc]
  rfl

theorem releasePosition_eq (h : w.positions.live = p + 1) :
    releasePosition p w = .ok () { w with positions := { w.positions with live := p } } := by
  change EStateM.bind (ofExcept w.positions.pop) _ w = _
  simp only [SlotStack.pop, h]
  exact assertLive_eq rfl

theorem replaceResult_eq (h : w.results.live = r + 1) :
    replaceResult w =
      .ok r { w with results := ({ w.results with live := r } : SlotStack).alloc.2 } := by
  change EStateM.bind (ofExcept w.results.replace) _ w = _
  simp only [SlotStack.replace, SlotStack.pop, h]
  rfl

theorem popResults_eq {n : Nat} (h : w.results.live = r + n) :
    popResults n w = .ok (List.range' r n) { w with results := { w.results with live := r } } := by
  change EStateM.bind (ofExcept (w.results.popMany n)) _ w = _
  have hr : r + n - n = r := Nat.add_sub_cancel r n
  simp only [SlotStack.popMany, h, hr, if_neg (Nat.not_lt.mpr (Nat.le_add_left n r))]
  rfl

theorem topResult_eq (h : w.results.live = r + 1) : topResult w = .ok r w := by
  change ofExcept (w.results.below 0) w = _
  simp only [SlotStack.below, h]
  rfl

theorem ensures_popResult (h : w.At session (r + 1) p) :
    Ensures popResult w fun slot w' => slot = r ∧ w'.At session r p :=
  ensures_of_ok (popResult_eq h.results_live) ⟨rfl, h.session_eq, rfl, h.positions_live⟩

theorem ensures_popResults {n : Nat} (h : w.At session (r + n) p) :
    Ensures (popResults n) w fun slots w' => slots = List.range' r n ∧ w'.At session r p :=
  ensures_of_ok (popResults_eq h.results_live) ⟨rfl, h.session_eq, rfl, h.positions_live⟩

theorem ensures_replaceResult (h : w.At session (r + 1) p) :
    Ensures replaceResult w fun slot w' => slot = r ∧ w'.At session (r + 1) p :=
  ensures_of_ok (replaceResult_eq h.results_live) ⟨rfl, h.session_eq, rfl, h.positions_live⟩

theorem ensures_topResult (h : w.At session (r + 1) p) :
    Ensures topResult w fun slot w' => slot = r ∧ w'.At session (r + 1) p :=
  ensures_of_ok (topResult_eq h.results_live) ⟨rfl, h⟩

theorem ensures_resultsFrom (h : w.At session r p) (slot : Nat) :
    Ensures (resultsFrom slot) w fun slots w' =>
      slots = List.range' slot (r - slot) ∧ w'.At session r p := by
  have hx : resultsFrom slot w = .ok (List.range' slot (w.results.live - slot)) w := rfl
  exact ensures_of_ok hx ⟨by rw [h.results_live], h⟩

theorem ensures_releasePosition (h : w.At session r (p + 1)) :
    Ensures (releasePosition p) w fun _ w' => w'.At session r p :=
  ensures_of_ok (releasePosition_eq h.positions_live) ⟨h.session_eq, h.results_live, rfl⟩

theorem ensures_assertLive {stack : Workspace → SlotStack} {expected : Nat}
    (h : (stack w).live = expected) :
    Ensures (assertLive stack expected) w fun _ w' => w' = w :=
  ensures_of_ok (assertLive_eq h) rfl

/-- A call that is in step does what it does, whether assertions are checked or not. -/
theorem ensures_inStep {scope : Scope} {x : Gen α} {post : α → Workspace → Prop}
    (h : w.results.live = scope.slot) (hx : Ensures x w post)
    (hp : ∀ a w', post a w' → w'.results.live = scope.slot + 1) :
    Ensures (inStep scope x) w post := by
  refine (ensures_assertLive h).bind ?_
  rintro _ _ rfl
  refine hx.bind fun a w' ha => ?_
  refine (ensures_assertLive (hp a w' ha)).bind ?_
  rintro _ _ rfl
  exact ensures_pure ha

theorem grown_of_extends {known : Session → Prop} (hs : session.Extends w.toSession)
    (hr : w.results.live = r) (hp : w.positions.live = p)
    (hk : ∀ final, w.toSession.Extends final → known final) : w.Grown session r p known :=
  ⟨w.toSession, hs, ⟨rfl, hr, hp⟩, hk⟩

theorem ensures_literal (h : w.At session r p) (bytes : Bytes) :
    Ensures (Gen.literal bytes) w fun number w' =>
      w'.Grown session r p fun final =>
        number = final.literalNumber bytes ∧ number < final.literals.length := by
  obtain ⟨rfl, rfl, rfl⟩ := h
  refine ensures_of_ok rfl (grown_of_extends ⟨Interner.toList_isPrefix_add _ _, List.prefix_rfl,
    List.prefix_rfl, List.prefix_rfl, List.prefix_rfl⟩ rfl rfl ?_)
  intro final hf
  exact Interner.number_of_isPrefix _ _ hf.literals

theorem ensures_charClass (h : w.At session r p) (singles : Bytes)
    (ranges : List (UInt8 × UInt8)) :
    Ensures (Gen.charClass singles ranges) w fun number w' =>
      w'.Grown session r p fun final =>
        number = final.classNumber singles ranges ∧ number < final.classes.length := by
  obtain ⟨rfl, rfl, rfl⟩ := h
  refine ensures_of_ok rfl (grown_of_extends ⟨List.prefix_rfl, Interner.toList_isPrefix_add _ _,
    List.prefix_rfl, List.prefix_rfl, List.prefix_rfl⟩ rfl rfl ?_)
  intro final hf
  exact Interner.number_of_isPrefix _ _ hf.classes

theorem ensures_expected (h : w.At session r p) (kind : ExpectedKind) (description : String) :
    Ensures (Gen.expected kind description) w fun number w' =>
      w'.Grown session r p fun final =>
        number = final.descriptionNumber kind description ∧
          number < final.descriptions.length := by
  obtain ⟨rfl, rfl, rfl⟩ := h
  refine ensures_of_ok rfl (grown_of_extends ⟨List.prefix_rfl, List.prefix_rfl,
    Interner.toList_isPrefix_add _ _, List.prefix_rfl, List.prefix_rfl⟩ rfl rfl ?_)
  intro final hf
  exact Interner.number_of_isPrefix _ _ hf.descriptions

theorem ensures_predicate (h : w.At session r p) (code : UserCode) (env : Env) :
    Ensures (Gen.predicate code env) w fun call w' =>
      w'.Grown session r p fun final =>
        call = final.predicateCall code env ∧ call.index < final.predicates.length := by
  obtain ⟨rfl, rfl, rfl⟩ := h
  refine ensures_of_ok rfl (grown_of_extends ⟨List.prefix_rfl, List.prefix_rfl, List.prefix_rfl,
    Interner.toList_isPrefix_add _ _, List.prefix_rfl⟩ rfl rfl ?_)
  intro final hf
  obtain ⟨hn, hl⟩ := Interner.number_of_isPrefix _ _ hf.predicates
  exact ⟨congrArg (Call.mk · env.values) hn, hl⟩

theorem ensures_action (h : w.At session r p) (code : UserCode) (env : Env) :
    Ensures (Gen.action code env) w fun call w' =>
      w'.Grown session r p fun final =>
        call = final.actionCall code env ∧ call.index < final.actions.length := by
  obtain ⟨rfl, rfl, rfl⟩ := h
  refine ensures_of_ok rfl (grown_of_extends ⟨List.prefix_rfl, List.prefix_rfl, List.prefix_rfl,
    List.prefix_rfl, Interner.toList_isPrefix_add _ _⟩ rfl rfl ?_)
  intro final hf
  obtain ⟨hn, hl⟩ := Interner.number_of_isPrefix _ _ hf.actions
  exact ⟨congrArg (Call.mk · env.values) hn, hl⟩

theorem ensures_warnIf (h : w.At session r p) (condition : Bool) (cx : Context)
    (kind : DiagnosticKind) (region : Option Region) (value : String) :
    Ensures (warnIf condition cx kind region value) w fun _ w' =>
      w'.Grown session r p fun _ => True := by
  obtain ⟨rfl, rfl, rfl⟩ := h
  unfold warnIf
  split
  · unfold warn
    cases cx.policy with
    | strict => exact ⟨_, rfl⟩
    | collecting =>
      exact grown_of_extends ⟨List.prefix_rfl, List.prefix_rfl, List.prefix_rfl, List.prefix_rfl,
        List.prefix_rfl⟩ rfl rfl fun _ _ => trivial
  · exact grown_of_extends (.refl _) rfl rfl fun _ _ => trivial

end Gen

end Backtrack
