import Backtrack.Proofs.Locals.Extent

/-!
# How high the slot stacks get

While an expression is generated, each stack of slots gets as high as the expression needs, and the
peaks are remembered. One law for each way to put code around code, then the induction.
-/

namespace Backtrack

set_option autoImplicit false

/-- How many slots are live on each of the stacks, and how many ever were. -/
structure Workspace.Stands (w : Workspace) (r p rmost pmost : Nat) : Prop where
  results : w.results = { SlotStack.results with live := r, peak := rmost }
  positions : w.positions = { SlotStack.positions with live := p, peak := pmost }
  results_le : r ≤ rmost
  positions_le : p ≤ pmost

namespace Workspace.Stands

variable {w : Workspace} {r p rmost pmost : Nat}

theorem results_live (h : w.Stands r p rmost pmost) : w.results.live = r := by rw [h.results]

theorem positions_live (h : w.Stands r p rmost pmost) : w.positions.live = p := by
  rw [h.positions]

theorem of_eq (h : w.Stands r p rmost pmost) {r' rmost' pmost' : Nat}
    (heq : r' = r ∧ rmost' = rmost ∧ pmost' = pmost) : w.Stands r' p rmost' pmost' := by
  obtain ⟨rfl, rfl, rfl⟩ := heq
  exact h

/-- What needs no position leaves their peak as it is. -/
theorem of_leaf (h : w.Stands r p rmost pmost) : w.Stands r p rmost (max pmost (p + 0)) := by
  rw [Nat.add_zero, Nat.max_eq_left h.positions_le]
  exact h

end Workspace.Stands

namespace Gen

variable {w : Workspace} {r p rmost pmost : Nat}

theorem stands_newResult (h : w.Stands r p rmost pmost) :
    Ensures newResult w fun _ w' => w'.Stands (r + 1) p (max rmost (r + 1)) pmost := by
  refine ensures_of_ok rfl ⟨?_, h.positions, Nat.le_max_right _ _, h.positions_le⟩
  change w.results.alloc.2 = _
  rw [h.results]
  rfl

theorem stands_newPosition (h : w.Stands r p rmost pmost) :
    Ensures newPosition w fun start w' =>
      start = p ∧ w'.Stands r (p + 1) rmost (max pmost (p + 1)) := by
  refine ensures_of_ok rfl ⟨h.positions_live, h.results, ?_, h.results_le, Nat.le_max_right _ _⟩
  change w.positions.alloc.2 = _
  rw [h.positions]
  rfl

theorem stands_popResults {n : Nat} (h : w.Stands (r + n) p rmost pmost) :
    Ensures (popResults n) w fun _ w' => w'.Stands r p rmost pmost := by
  have hle := h.results_le
  refine ensures_of_ok (popResults_eq h.results_live) ⟨?_, h.positions, by omega, h.positions_le⟩
  dsimp only
  rw [h.results]

theorem stands_popResult (h : w.Stands (r + 1) p rmost pmost) :
    Ensures popResult w fun _ w' => w'.Stands r p rmost pmost := by
  have hle := h.results_le
  refine ensures_of_ok (popResult_eq h.results_live) ⟨?_, h.positions, by omega, h.positions_le⟩
  dsimp only
  rw [h.results]

/-- A slot that was live is live again, so that the peak stays. -/
theorem stands_replaceResult (h : w.Stands (r + 1) p rmost pmost) :
    Ensures replaceResult w fun _ w' => w'.Stands (r + 1) p rmost pmost := by
  refine ensures_of_ok (replaceResult_eq h.results_live)
    ⟨?_, h.positions, h.results_le, h.positions_le⟩
  dsimp only [SlotStack.alloc]
  rw [h.results]
  dsimp only
  rw [Nat.max_eq_left h.results_le]

theorem stands_topResult (h : w.Stands (r + 1) p rmost pmost) :
    Ensures topResult w fun _ w' => w'.Stands (r + 1) p rmost pmost :=
  ensures_of_ok (topResult_eq h.results_live) h

theorem stands_resultsFrom (h : w.Stands r p rmost pmost) (slot : Nat) :
    Ensures (resultsFrom slot) w fun _ w' => w'.Stands r p rmost pmost := by
  have hx : resultsFrom slot w = .ok (List.range' slot (w.results.live - slot)) w := rfl
  exact ensures_of_ok hx h

theorem stands_releasePosition (h : w.Stands r (p + 1) rmost pmost) :
    Ensures (releasePosition p) w fun _ w' => w'.Stands r p rmost pmost := by
  have hle := h.positions_le
  refine ensures_of_ok (releasePosition_eq h.positions_live)
    ⟨h.results, ?_, h.results_le, by omega⟩
  dsimp only
  rw [h.positions]

theorem stands_literal (h : w.Stands r p rmost pmost) (bytes : Bytes) :
    Ensures (Gen.literal bytes) w fun _ w' => w'.Stands r p rmost pmost :=
  ensures_of_ok rfl { h with }

theorem stands_charClass (h : w.Stands r p rmost pmost) (singles : Bytes)
    (ranges : List (UInt8 × UInt8)) :
    Ensures (Gen.charClass singles ranges) w fun _ w' => w'.Stands r p rmost pmost :=
  ensures_of_ok rfl { h with }

theorem stands_expected (h : w.Stands r p rmost pmost) (kind : ExpectedKind)
    (description : String) :
    Ensures (Gen.expected kind description) w fun _ w' => w'.Stands r p rmost pmost :=
  ensures_of_ok rfl { h with }

theorem stands_predicate (h : w.Stands r p rmost pmost) (code : UserCode) (env : Env) :
    Ensures (Gen.predicate code env) w fun _ w' => w'.Stands r p rmost pmost :=
  ensures_of_ok rfl { h with }

theorem stands_action (h : w.Stands r p rmost pmost) (code : UserCode) (env : Env) :
    Ensures (Gen.action code env) w fun _ w' => w'.Stands r p rmost pmost :=
  ensures_of_ok rfl { h with }

theorem stands_warnIf (h : w.Stands r p rmost pmost) (condition : Bool) (cx : Context)
    (kind : DiagnosticKind) (region : Option Region) (value : String) :
    Ensures (warnIf condition cx kind region value) w fun _ w' => w'.Stands r p rmost pmost := by
  unfold warnIf
  split
  · unfold warn
    cases cx.policy with
    | strict => exact ⟨_, rfl⟩
    | collecting => exact ensures_of_ok rfl { h with }
  · exact ensures_pure h

end Gen

namespace Generate

open Gen

variable {w : Workspace} {r p rmost pmost rmost' pmost' : Nat}

theorem stands_literal (h : w.Stands r p rmost pmost) (cx : Context) (region : Option Region)
    (value : String) (ignoreCase : Bool) :
    Ensures (Generate.literal cx region value ignoreCase) w fun _ w' =>
      w'.Stands (r + 1) p (max rmost (r + 1)) pmost := by
  apply (stands_warnIf h _ _ _ _ _).bind
  intro _ w₁ h₁
  apply (stands_warnIf h₁ _ _ _ _ _).bind
  intro _ w₂ h₂
  apply (Gen.stands_literal h₂ _).bind
  intro _ w₃ h₃
  apply (stands_expected h₃ _ _).bind
  intro _ w₄ h₄
  exact (stands_newResult h₄).bind fun _ _ h₅ => ensures_pure h₅

theorem stands_charClass (h : w.Stands r p rmost pmost) (cx : Context) (region : Option Region)
    (cls : CharClass) :
    Ensures (Generate.charClass cx region cls) w fun _ w' =>
      w'.Stands (r + 1) p (max rmost (r + 1)) pmost := by
  apply (stands_warnIf h _ _ _ _ _).bind
  intro _ w₁ h₁
  apply (stands_warnIf h₁ _ _ _ _ _).bind
  intro _ w₂ h₂
  apply (Gen.stands_charClass h₂ _ _).bind
  intro _ w₃ h₃
  apply (stands_expected h₃ _ _).bind
  intro _ w₄ h₄
  exact (stands_newResult h₄).bind fun _ _ h₅ => ensures_pure h₅

theorem stands_predicate (h : w.Stands r p rmost pmost) (negated : Bool) (code : UserCode)
    (env : Env) :
    Ensures (Generate.predicate negated code env) w fun _ w' =>
      w'.Stands (r + 1) p (max rmost (r + 1)) pmost := by
  apply (Gen.stands_predicate h _ _).bind
  intro _ w₁ h₁
  apply (stands_newResult h₁).bind
  intro _ w₂ h₂
  exact (stands_replaceResult h₂).bind fun _ _ h₃ => ensures_pure h₃

theorem stands_named {inner : Gen (Code × Env)} (h : w.Stands r p rmost pmost) (name : String)
    (hi : ∀ w, w.Stands r p rmost pmost →
      Ensures inner w fun _ w' => w'.Stands (r + 1) p rmost' pmost') :
    Ensures (Generate.named name inner) w fun _ w' => w'.Stands (r + 1) p rmost' pmost' := by
  apply (stands_expected h _ _).bind
  intro _ w₁ h₁
  apply (hi w₁ h₁).bind
  intro _ w₂ h₂
  apply (stands_topResult h₂).bind
  intro _ w₃ h₃
  exact (stands_replaceResult h₃).bind fun _ _ h₄ => ensures_pure h₄

theorem stands_text {inner : Gen Code} (h : w.Stands r p rmost pmost)
    (hi : ∀ w, w.Stands r (p + 1) rmost (max pmost (p + 1)) →
      Ensures inner w fun _ w' => w'.Stands (r + 1) (p + 1) rmost' pmost') :
    Ensures (Generate.text inner) w fun _ w' => w'.Stands (r + 1) p rmost' pmost' := by
  apply (stands_newPosition h).bind
  intro start w₁ h₁
  obtain ⟨rfl, h₁⟩ := h₁
  apply (hi w₁ h₁).bind
  intro _ w₂ h₂
  apply (stands_releasePosition h₂).bind
  intro _ w₃ h₃
  apply (stands_topResult h₃).bind
  intro _ w₄ h₄
  exact (stands_replaceResult h₄).bind fun _ _ h₅ => ensures_pure h₅

theorem stands_action {inner : Gen (Code × Env)} (h : w.Stands r p rmost pmost) (code : UserCode)
    (hi : ∀ w, w.Stands r (p + 1) rmost (max pmost (p + 1)) →
      Ensures inner w fun _ w' => w'.Stands (r + 1) (p + 1) rmost' pmost') :
    Ensures (Generate.action code inner) w fun _ w' => w'.Stands (r + 1) p rmost' pmost' := by
  apply (stands_newPosition h).bind
  intro start w₁ h₁
  obtain ⟨rfl, h₁⟩ := h₁
  apply (hi w₁ h₁).bind
  intro _ w₂ h₂
  apply (Gen.stands_action h₂ _ _).bind
  intro _ w₃ h₃
  apply (stands_topResult h₃).bind
  intro _ w₄ h₄
  exact (stands_releasePosition h₄).bind fun _ _ h₅ => ensures_pure h₅

theorem stands_optional {inner : Gen Code} (h : w.Stands r p rmost pmost)
    (hi : ∀ w, w.Stands r p rmost pmost →
      Ensures inner w fun _ w' => w'.Stands (r + 1) p rmost' pmost') :
    Ensures (Generate.optional inner) w fun _ w' => w'.Stands (r + 1) p rmost' pmost' := by
  apply (hi w h).bind
  intro _ w₁ h₁
  apply (stands_topResult h₁).bind
  intro _ w₂ h₂
  exact (stands_replaceResult h₂).bind fun _ _ h₃ => ensures_pure h₃

theorem stands_lookahead {inner : Gen Code} (h : w.Stands r p rmost pmost) (negated : Bool)
    (hi : ∀ w, w.Stands r (p + 1) rmost (max pmost (p + 1)) →
      Ensures inner w fun _ w' => w'.Stands (r + 1) (p + 1) rmost' pmost') :
    Ensures (Generate.lookahead negated inner) w fun _ w' =>
      w'.Stands (r + 1) p rmost' pmost' := by
  apply (stands_newPosition h).bind
  intro start w₁ h₁
  obtain ⟨rfl, h₁⟩ := h₁
  apply (hi w₁ h₁).bind
  intro _ w₂ h₂
  apply (stands_releasePosition h₂).bind
  intro _ w₃ h₃
  apply (stands_topResult h₃).bind
  intro _ w₄ h₄
  apply (stands_replaceResult h₄).bind
  intro _ w₅ h₅
  cases negated with
  | false => exact ensures_pure h₅
  | true => exact (stands_replaceResult h₅).bind fun _ _ h₆ => ensures_pure h₆

theorem stands_enough (h : w.Stands (r + 1) (p + 1) rmost pmost) (least : UInt32)
    (array : Nat) :
    Ensures (Generate.enough least array p) w fun _ w' => w'.Stands (r + 1) p rmost pmost := by
  apply (stands_releasePosition h).bind
  intro _ w₁ h₁
  exact (stands_replaceResult h₁).bind fun _ _ h₂ => ensures_pure h₂

theorem stands_repeated {inner : Gen Code} (h : w.Stands r p rmost pmost)
    (quantifier : Quantifier)
    (hi : ∀ w, w.Stands (r + 1) (if 0 < quantifier.least then p + 1 else p) (max rmost (r + 1))
        (if 0 < quantifier.least then max pmost (p + 1) else pmost) →
      Ensures inner w fun _ w' =>
        w'.Stands (r + 2) (if 0 < quantifier.least then p + 1 else p) rmost' pmost') :
    Ensures (Generate.repeated quantifier inner) w fun _ w' =>
      w'.Stands (r + 1) p rmost' pmost' := by
  unfold Generate.repeated
  by_cases hq : 0 < quantifier.least
  · simp only [if_pos hq] at hi ⊢
    have hsave : Ensures (some <$> newPosition) w fun start? w' =>
        start? = some p ∧ w'.Stands r (p + 1) rmost (max pmost (p + 1)) :=
      ((stands_newPosition h).mono fun _ _ hs => ⟨congrArg some hs.1, hs.2⟩).map some
    apply hsave.bind
    intro _ w₁ h₁
    obtain ⟨rfl, h₁⟩ := h₁
    apply (stands_newResult h₁).bind
    intro _ w₂ h₂
    apply (stands_topResult h₂).bind
    intro _ w₃ h₃
    apply (hi w₃ h₃).bind
    intro _ w₄ h₄
    apply (stands_popResult h₄).bind
    intro _ w₅ h₅
    exact (stands_enough h₅ _ _).bind fun _ _ h₆ => ensures_pure h₆
  · simp only [if_neg hq] at hi ⊢
    have hsave : Ensures (pure (none : Option Nat)) w fun start? w' =>
        start? = none ∧ w'.Stands r p rmost pmost := ensures_pure ⟨rfl, h⟩
    apply hsave.bind
    intro _ w₁ h₁
    obtain ⟨rfl, h₁⟩ := h₁
    apply (stands_newResult h₁).bind
    intro _ w₂ h₂
    apply (stands_topResult h₂).bind
    intro _ w₃ h₃
    apply (hi w₃ h₃).bind
    intro _ w₄ h₄
    exact (stands_popResult h₄).bind fun _ _ h₅ => ensures_pure h₅

theorem stands_element {inner : Gen (Code × Env)} (number slot start : Nat)
    (hi : Ensures inner w fun _ w' => w'.Stands (r + 1) p rmost' pmost') :
    Ensures (Generate.element number slot start inner) w fun _ w' =>
      w'.Stands (r + 1) p rmost' pmost' := by
  apply hi.bind
  intro _ w₁ h₁
  apply (stands_topResult h₁).bind
  intro _ w₂ h₂
  exact (stands_resultsFrom h₂ slot).bind fun _ _ h₃ => ensures_pure h₃

theorem stands_sequence {elements : Nat → Gen (Code × Env)} {scope : Scope} {count : Nat}
    (h : w.Stands scope.slot p rmost pmost)
    (hi : ∀ w, w.Stands scope.slot (p + 1) rmost (max pmost (p + 1)) →
      Ensures (elements p) w fun _ w' =>
        w'.Stands (scope.slot + count) (p + 1) rmost' pmost') :
    Ensures (Generate.sequence scope count elements) w fun _ w' =>
      w'.Stands (scope.slot + 1) p (max rmost' (scope.slot + 1)) pmost' := by
  apply (stands_newPosition h).bind
  intro start w₁ h₁
  obtain ⟨rfl, h₁⟩ := h₁
  apply (hi w₁ h₁).bind
  intro out w₂ h₂
  apply (stands_popResults h₂).bind
  intro _ w₃ h₃
  apply (stands_releasePosition h₃).bind
  intro _ w₄ h₄
  cases scope.action with
  | none =>
    have hskip : Ensures (pure Code.skip) w₄ fun _ w' =>
        w'.Stands scope.slot start rmost' pmost' := ensures_pure h₄
    apply hskip.bind
    intro _ w₅ h₅
    exact (stands_newResult h₅).bind fun _ _ h₆ => ensures_pure h₆
  | some action =>
    have hcall : Ensures ((Code.instr <| .act ·) <$> Gen.action action out.2) w₄ fun _ w' =>
        w'.Stands scope.slot start rmost' pmost' := (Gen.stands_action h₄ action out.2).map _
    apply hcall.bind
    intro _ w₅ h₅
    exact (stands_newResult h₅).bind fun _ _ h₆ => ensures_pure h₆

theorem stands_alternative {inner : Gen Code} (number : Nat)
    (hi : Ensures inner w fun _ w' => w'.Stands (r + 1) p rmost' pmost') :
    Ensures (Generate.alternative number inner) w fun _ w' => w'.Stands r p rmost' pmost' := by
  apply hi.bind
  intro _ w₁ h₁
  exact (stands_popResult h₁).bind fun _ _ h₂ => ensures_pure h₂

end Generate

namespace Expr

open Gen

/-- In step with its scope, the expression takes the peaks as high as it needs. -/
def Reaches (e : Expr) : Prop :=
  ∀ (cx : Context) (scope : Scope) (w : Workspace) (p rmost pmost : Nat),
    w.Stands scope.slot p rmost pmost →
    Ensures (e.generate cx scope) w fun _ w' =>
      w'.Stands (scope.slot + 1) p (max rmost (scope.slot + e.resultSpan))
        (max pmost (p + e.positionSpan))

theorem stands_elements {elements : List Expr} (he : ∀ e ∈ elements, e.Reaches) (cx : Context)
    (slot start done : Nat) (env : Env) {w : Workspace} {rmost pmost : Nat}
    (h : w.Stands (slot + done) (start + 1) rmost pmost) :
    Ensures (generateElements cx slot start done env elements) w fun _ w' =>
      w'.Stands (slot + done + elements.length) (start + 1)
        (max rmost (slot + done + resultSpanAll elements))
        (max pmost (start + 1 + positionSpanMost elements)) := by
  induction elements generalizing done env w rmost pmost with
  | nil =>
    have hresults := h.results_le
    have hpositions := h.positions_le
    apply ensures_pure
    apply h.of_eq
    simp only [List.length_nil, resultSpanAll, positionSpanMost]
    omega
  | cons first rest ih =>
    obtain ⟨hfirst, hrest⟩ := List.forall_mem_cons.mp he
    have hone := hfirst cx ⟨slot + done, env, none⟩ w (start + 1) rmost pmost h
    apply (Generate.stands_element (done + 1) slot start hone).bind
    intro out w₁ h₁
    apply (ih hrest (done + 1) out.2 h₁).bind
    intro _ w₂ h₂
    apply ensures_pure
    apply h₂.of_eq
    simp only [List.length_cons, resultSpanAll, positionSpanMost]
    omega

theorem stands_alternatives {alternatives : List Expr} (hne : alternatives ≠ [])
    (he : ∀ e ∈ alternatives, e.Reaches) (cx : Context) (scope : Scope) (number : Nat)
    {w : Workspace} {p rmost pmost : Nat} (h : w.Stands scope.slot p rmost pmost) :
    Ensures (generateAlternatives cx scope number alternatives) w fun _ w' =>
      w'.Stands (scope.slot + 1) p (max rmost (scope.slot + resultSpanFirst alternatives))
        (max pmost (p + positionSpanMost alternatives)) := by
  induction alternatives generalizing number w rmost pmost with
  | nil => exact absurd rfl hne
  | cons first rest ih =>
    obtain ⟨hfirst, hrest⟩ := List.forall_mem_cons.mp he
    have hone := hfirst cx (scope.branch scope.slot) w p rmost pmost h
    cases rest with
    | nil =>
      apply hone.bind
      intro _ w₁ h₁
      apply ensures_pure
      apply h₁.of_eq
      simp only [Scope.branch, resultSpanFirst, positionSpanMost, true_and]
      omega
    | cons second others =>
      apply (Generate.stands_alternative number (hone.map Prod.fst)).bind
      intro _ w₁ h₁
      apply (ih (List.cons_ne_nil _ _) hrest (number + 1) h₁).bind
      intro _ w₂ h₂
      apply ensures_pure
      apply h₂.of_eq
      simp only [Scope.branch, resultSpanFirst, positionSpanMost, true_and]
      omega

theorem reaches (e : Expr) : e.Reaches := by
  induction e using Expr.induction with
  | named region name inner ih =>
    intro cx scope w p rmost pmost h
    refine ensures_inStep h.results_live ?_ fun _ _ h' => h'.results_live
    exact Generate.stands_named h name fun w hw => ih cx scope w p rmost pmost hw
  | choice region alternatives ih =>
    intro cx scope w p rmost pmost h
    have hpositions := h.positions_le
    cases alternatives with
    | nil =>
      refine ensures_inStep h.results_live ?_ fun _ _ h' => h'.results_live
      apply (stands_newResult h).bind
      intro _ w₁ h₁
      apply ensures_pure
      apply h₁.of_eq
      simp only [resultSpan, resultSpanFirst, positionSpan, positionSpanMost, true_and]
      omega
    | cons first rest =>
      refine ensures_inStep h.results_live ?_ fun _ _ h' => h'.results_live
      apply (stands_alternatives (List.cons_ne_nil first rest) ih cx scope 1 h).bind
      intro _ w₁ h₁
      have hpos := first.resultSpan_pos
      apply ensures_pure
      apply h₁.of_eq
      simp only [resultSpan, resultSpanFirst, positionSpan, true_and, and_true]
      omega
  | sequence region elements ih =>
    intro cx scope w p rmost pmost h
    refine ensures_inStep h.results_live ?_ fun _ _ h' => h'.results_live
    apply (Generate.stands_sequence h fun w hw =>
      stands_elements ih cx scope.slot p 0 scope.env hw).mono
    intro _ w' h'
    apply h'.of_eq
    simp only [resultSpan, positionSpan, true_and]
    omega
  | labeled region label inner ih =>
    intro cx scope w p rmost pmost h
    refine ensures_inStep h.results_live ?_ fun _ _ h' => h'.results_live
    apply (ih cx ((scope.bind label).branch scope.slot) w p rmost pmost h).bind
    intro _ w₁ h₁
    exact ensures_pure h₁
  | text region inner ih =>
    intro cx scope w p rmost pmost h
    refine ensures_inStep h.results_live ?_ fun _ _ h' => h'.results_live
    apply (Generate.stands_text h fun w hw =>
      (ih cx (scope.branch scope.slot) w (p + 1) rmost (max pmost (p + 1)) hw).map Prod.fst).bind
    intro _ w₁ h₁
    apply ensures_pure
    apply h₁.of_eq
    simp only [Scope.branch, resultSpan, positionSpan, true_and]
    omega
  | optional region inner ih =>
    intro cx scope w p rmost pmost h
    refine ensures_inStep h.results_live ?_ fun _ _ h' => h'.results_live
    apply (Generate.stands_optional h fun w hw =>
      (ih cx (scope.branch scope.slot) w p rmost pmost hw).map Prod.fst).bind
    intro _ w₁ h₁
    exact ensures_pure h₁
  | repeated region quantifier inner ih =>
    intro cx scope w p rmost pmost h
    have hpositions := h.positions_le
    refine ensures_inStep h.results_live ?_ fun _ _ h' => h'.results_live
    apply (Generate.stands_repeated h quantifier fun w hw =>
      (ih cx (scope.branch (scope.slot + 1)) w _ _ _ hw).map Prod.fst).bind
    intro _ w₁ h₁
    have hpos := inner.resultSpan_pos
    apply ensures_pure
    apply h₁.of_eq
    simp only [Scope.branch, resultSpan, positionSpan, true_and]
    split <;> omega
  | lookahead region negated inner ih =>
    intro cx scope w p rmost pmost h
    refine ensures_inStep h.results_live ?_ fun _ _ h' => h'.results_live
    apply (Generate.stands_lookahead h negated fun w hw =>
      (ih cx (scope.branch scope.slot) w (p + 1) rmost (max pmost (p + 1)) hw).map Prod.fst).bind
    intro _ w₁ h₁
    apply ensures_pure
    apply h₁.of_eq
    simp only [Scope.branch, resultSpan, positionSpan, true_and]
    omega
  | predicate region negated code =>
    intro cx scope w p rmost pmost h
    refine ensures_inStep h.results_live ?_ fun _ _ h' => h'.results_live
    exact (Generate.stands_predicate h negated code scope.env).bind fun _ _ h₁ =>
      ensures_pure h₁.of_leaf
  | action region code inner ih =>
    intro cx scope w p rmost pmost h
    refine ensures_inStep h.results_live ?_ fun _ _ h' => h'.results_live
    by_cases hseq : inner.isSequence = true
    · rw [if_pos hseq]
      have hcode : Ensures (Prod.fst <$> inner.generate cx (scope.withAction code)) w fun _ w' =>
          w'.Stands (scope.slot + 1) p (max rmost (scope.slot + inner.resultSpan))
            (max pmost (p + inner.positionSpan)) :=
        (ih cx (scope.withAction code) w p rmost pmost h).map Prod.fst
      apply hcode.bind
      intro _ w₁ h₁
      apply ensures_pure
      rw [positionSpan, if_pos hseq]
      exact h₁
    · rw [if_neg hseq]
      apply (Generate.stands_action h code fun w hw =>
        ih cx (scope.branch scope.slot) w (p + 1) rmost (max pmost (p + 1)) hw).bind
      intro _ w₁ h₁
      apply ensures_pure
      apply h₁.of_eq
      simp only [Scope.branch, resultSpan, positionSpan, if_neg hseq, true_and]
      omega
  | ruleRef region name =>
    intro cx scope w p rmost pmost h
    refine ensures_inStep h.results_live ?_ fun _ _ h' => h'.results_live
    exact (stands_newResult h).bind fun _ _ h₁ => ensures_pure h₁.of_leaf
  | literal region value ignoreCase =>
    intro cx scope w p rmost pmost h
    refine ensures_inStep h.results_live ?_ fun _ _ h' => h'.results_live
    exact (Generate.stands_literal h cx region value ignoreCase).bind fun _ _ h₁ =>
      ensures_pure h₁.of_leaf
  | charClass region cls =>
    intro cx scope w p rmost pmost h
    refine ensures_inStep h.results_live ?_ fun _ _ h' => h'.results_live
    exact (Generate.stands_charClass h cx region cls).bind fun _ _ h₁ =>
      ensures_pure h₁.of_leaf
  | any region =>
    intro cx scope w p rmost pmost h
    refine ensures_inStep h.results_live ?_ fun _ _ h' => h'.results_live
    exact (stands_newResult h).bind fun _ _ h₁ => ensures_pure h₁.of_leaf

end Expr

end Backtrack
