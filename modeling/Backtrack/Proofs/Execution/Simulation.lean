import Backtrack.Proofs.Execution.Templates

/-!
# Code follows its expression

The induction over expressions. Numbers of constants and of user functions come to what they stand
for in the tables.
-/

namespace Backtrack

set_option autoImplicit false

open Code

variable {Pos : Type}

namespace Session

variable {tables : Session}

theorem getD_idxOf {α : Type} [DecidableEq α] {table : List α} {a : α} (default : α)
    (h : table.idxOf a < table.length) : table.getD (table.idxOf a) default = a := by
  rw [List.getD_eq_getElem?_getD, List.getElem?_eq_getElem h, Option.getD_some, List.getElem_idxOf]

theorem actionAt_actionCall {code : UserCode} {env : Env}
    (h : (tables.actionCall code env).index < tables.actions.length) :
    tables.actionAt (tables.actionCall code env).index = functionOf code env.keys :=
  getD_idxOf _ h

theorem predicateAt_predicateCall {code : UserCode} {env : Env}
    (h : (tables.predicateCall code env).index < tables.predicates.length) :
    tables.predicateAt (tables.predicateCall code env).index = functionOf code env.keys :=
  getD_idxOf _ h

theorem literalAt_literalNumber {bytes : Bytes}
    (h : tables.literalNumber bytes < tables.literals.length) :
    tables.literalAt (tables.literalNumber bytes) = Constants.literal bytes :=
  getD_idxOf _ h

theorem classAt_classNumber {singles : Bytes} {ranges : List (UInt8 × UInt8)}
    (h : tables.classNumber singles ranges < tables.classes.length) :
    tables.classAt (tables.classNumber singles ranges) = Constants.charClass singles ranges :=
  getD_idxOf _ h

theorem descriptionAt_descriptionNumber {kind : ExpectedKind} {description : String}
    (h : tables.descriptionNumber kind description < tables.descriptions.length) :
    tables.descriptionAt (tables.descriptionNumber kind description) =
      Constants.expected kind (Bytes.ofString description) :=
  getD_idxOf _ h

end Session

namespace Expr

/-- Wherever it stands, the code of an expression follows the expression. -/
def Simulated (tables : Session) (rt : Runtime Pos) (n : Nat) (e : Expr) : Prop :=
  ∀ (slot start : Nat) (action : Option UserCode) (sight : Sight Pos) (s : State Pos),
    sight.Held slot s → (e.lower tables ⟨slot, sight.slots, action⟩ start).Within tables →
    Follows sight e.exports (e.envAfter slot sight.slots) slot start s
      ((e.lower tables ⟨slot, sight.slots, action⟩ start).run tables rt n s)
      (e.attempt rt n s.silent sight.bindings action s.current)

variable {tables : Session} {rt : Runtime Pos} {n : Nat}

theorem simulated_elements {elements : List Expr} (he : ∀ e ∈ elements, e.Simulated tables rt n)
    (slot start done : Nat) (sight : Sight Pos) (s : State Pos)
    (hs : sight.Held (slot + done) s)
    (hw : (lowerElements tables slot start done sight.slots elements).Within tables) :
    FollowsAll sight (exportsAll elements) (envAfterAll (slot + done) sight.slots elements)
      elements.length slot start done s
      ((lowerElements tables slot start done sight.slots elements).run tables rt n s)
      (attemptAll rt n s.silent sight.bindings elements s.current) := by
  induction elements generalizing done sight s with
  | nil => exact .matched (logged_nil rfl) (.refl ..) rfl rfl hs (sight.since_refl [])
  | cons first rest ih =>
    rw [lowerElements, Code.within_append, Template.within_element] at hw
    have hfirst := he first List.mem_cons_self (slot + done) (start + 1) none sight s hs hw.1
    have hrest := ih fun e hmem => he e (List.mem_cons_of_mem first hmem)
    refine FollowsAll.cons hfirst ?_
    intro s' after hslots hheld hsilent
    have h := hrest (done + 1) after s' hheld
    rw [hslots, hsilent] at h
    exact h hw.2

theorem simulated_alternatives {alternatives : List Expr} (hne : alternatives ≠ [])
    (he : ∀ e ∈ alternatives, e.Simulated tables rt n) (slot start number : Nat)
    (action : Option UserCode) (sight : Sight Pos) (s : State Pos) (hs : sight.Held slot s)
    (hw : (lowerAlternatives tables ⟨slot, sight.slots, action⟩ start number
      alternatives).Within tables) :
    Follows sight [] sight.slots slot start s
      (landed ((lowerAlternatives tables ⟨slot, sight.slots, action⟩ start number
        alternatives).run tables rt n s))
      (attemptFirst rt n s.silent sight.bindings alternatives s.current) := by
  induction alternatives generalizing number s with
  | nil => exact absurd rfl hne
  | cons first rest ih =>
    have hfirst := he first List.mem_cons_self slot start none sight s hs
    cases rest with
    | nil =>
      have hlast := (hfirst (by simpa [lowerAlternatives, Code.Within, Scope.branch] using hw)).inScope hs
      have hrun : (lowerAlternatives tables ⟨slot, sight.slots, action⟩ start number [first]).run
          tables rt n s = andThen (fun s => (.done, s))
            ((first.lower tables ⟨slot, sight.slots, none⟩ start).run tables rt n s) := rfl
      rw [hrun, andThen_done, hlast.landed_eq, attemptFirst, attemptFirst, Attempt.orElse_failed]
      exact hlast
    | cons second rest =>
      have hrest := ih (List.cons_ne_nil _ _) fun e hmem => he e (List.mem_cons_of_mem first hmem)
      rw [lowerAlternatives, Code.within_append, Template.within_alternative] at hw
      rw [lowerAlternatives, attemptFirst]
      refine Follows.alternative hs (hfirst hw.1) ?_
      intro s' hs' hsilent hback
      have h := hrest (number + 1) s' hs' hw.2
      rw [hsilent, hback] at h
      exact h

/-- The code of every expression follows the expression. -/
theorem simulated (tables : Session) (rt : Runtime Pos) (n : Nat) (e : Expr) :
    e.Simulated tables rt n := by
  induction e using Expr.induction with
  | named region name inner ih =>
    intro slot start action sight s hs hw
    rw [lower, Template.within_named] at hw
    obtain ⟨hinner, hexpected⟩ := hw
    rw [lower, attempt, exports, envAfter, ← Session.descriptionAt_descriptionNumber hexpected]
    exact Follows.named (ih slot start action sight _ hs hinner)
  | choice region alternatives ih =>
    intro slot start action sight s hs hw
    cases alternatives with
    | nil =>
      have hkept := (Kept.refl slot start s).assign none
      exact .failed (logged_nil rfl) hkept (s.assign_self ..) rfl
    | cons first rest =>
      have hcode : (Expr.choice region (first :: rest)).lower tables ⟨slot, sight.slots, action⟩
          start = loop .choice (lowerAlternatives tables ⟨slot, sight.slots, action⟩ start 1
            (first :: rest)) := by
        rw [lower]
        exact fun h => absurd h (List.cons_ne_nil first rest)
      rw [hcode] at hw ⊢
      exact simulated_alternatives (List.cons_ne_nil first rest) ih slot start 1 action sight s hs hw
  | sequence region elements ih =>
    intro slot start action sight s hs hw
    rw [lower, Template.within_sequence] at hw
    obtain ⟨helements, hcall⟩ := hw
    have h := simulated_elements ih slot start 0 sight (s.save start) hs helements
    rw [lower, attempt, exports, envAfter]
    refine Follows.sequence hs ?_ h
    intro code haction
    subst haction
    exact Session.actionAt_actionCall hcall
  | labeled region label inner ih =>
    intro slot start action sight s hs hw
    rw [lower] at hw
    rw [lower, attempt, exports, envAfter]
    have h := ih slot start none (sight.insert label (slot, .pending)) s
      (hs.insert_pending label slot)
    rw [Sight.slots_insert, Sight.bindings_insert] at h
    exact Follows.labeled hs (h hw)
  | text region inner ih =>
    intro slot start action sight s hs hw
    rw [lower, Template.within_text] at hw
    rw [lower, attempt, exports, envAfter]
    exact Follows.text hs (ih slot (start + 1) none sight (s.save start) hs hw)
  | optional region inner ih =>
    intro slot start action sight s hs hw
    rw [lower, Template.within_optional] at hw
    rw [lower, attempt, exports, envAfter]
    exact Follows.optional hs (ih slot start none sight s hs hw)
  | repeated region quantifier inner ih =>
    intro slot start action sight s hs hw
    rw [lower, Template.within_repeated] at hw
    rw [lower, attempt, exports, envAfter]
    have hitem : ∀ s' : State Pos, sight.Held (slot + 1) s' → s'.silent = s.silent →
        Follows sight inner.exports (inner.envAfter (slot + 1) sight.slots) (slot + 1)
          (if 0 < quantifier.least then start + 1 else start) s'
          ((inner.lower tables ⟨slot + 1, sight.slots, none⟩
            (if 0 < quantifier.least then start + 1 else start)).run tables rt n s')
          (inner.attempt rt n s.silent sight.bindings none s'.current) := by
      intro s' hs' hsilent
      rw [← hsilent]
      exact ih (slot + 1) _ none sight s' hs' hw
    exact Follows.repeated quantifier hs hitem
  | lookahead region negated inner ih =>
    intro slot start action sight s hs hw
    rw [lower, Template.within_lookahead] at hw
    rw [lower, attempt, exports, envAfter]
    exact Follows.lookahead negated hs (ih slot (start + 1) none sight _ hs hw)
  | predicate region negated code =>
    intro slot start action sight s hs hw
    rw [lower, Template.within_predicate] at hw
    rw [lower, attempt, exports, envAfter]
    exact Follows.predicate negated hs (Session.predicateAt_predicateCall hw) rfl
  | action region code inner ih =>
    intro slot start action sight s hs hw
    by_cases hseq : inner.isSequence = true
    · rw [lower, if_pos hseq] at hw
      rw [lower, if_pos hseq, attempt, if_pos hseq, exports, envAfter]
      exact (ih slot start (some code) sight s hs hw).inScope hs
    · rw [lower, if_neg hseq, Template.within_action] at hw
      obtain ⟨hinner, hcall⟩ := hw
      rw [lower, if_neg hseq, attempt, if_neg hseq, exports, envAfter]
      exact Follows.action hs (Session.actionAt_actionCall hcall) rfl
        (ih slot (start + 1) none sight (s.save start) hs hinner)
  | ruleRef region name =>
    intro slot start action sight s hs hw
    rw [lower, attempt, exports, envAfter]
    exact Follows.scanned hs rfl
  | literal region value ignoreCase =>
    intro slot start action sight s hs hw
    rw [lower] at hw
    obtain ⟨hconstant, hexpected⟩ := hw
    rw [lower, attempt, exports, envAfter, ← Session.descriptionAt_descriptionNumber hexpected,
      ← Session.literalAt_literalNumber hconstant]
    exact Follows.scanned hs rfl
  | charClass region cls =>
    intro slot start action sight s hs hw
    rw [lower] at hw
    obtain ⟨hconstant, hexpected⟩ := hw
    rw [lower, attempt, exports, envAfter, ← Session.descriptionAt_descriptionNumber hexpected,
      ← Session.classAt_classNumber hconstant]
    exact Follows.scanned hs rfl
  | any region =>
    intro slot start action sight s hs hw
    rw [lower, attempt, exports, envAfter]
    exact Follows.scanned hs rfl

end Expr

end Backtrack
