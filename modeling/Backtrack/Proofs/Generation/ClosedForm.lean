import Backtrack.Generate.Rule
import Backtrack.Proofs.Generation.Lowering

/-!
# Generation comes to its closed form

One law for each way to put code around code, then the induction over expressions: in step with its
scope, generation leaves one more live result, no more live position, and the closed form.
-/

namespace Backtrack

set_option autoImplicit false

open Code Gen

namespace Generate

variable {w : Workspace} {session : Session} {r p : Nat} {known : Code → Session → Prop}
variable {env : Env}

theorem ensures_literal (h : w.At session r p) (cx : Context) (region : Option Region)
    (value : String) (ignoreCase : Bool) :
    Ensures (Generate.literal cx region value ignoreCase) w fun code w' =>
      w'.Grown session (r + 1) p fun final =>
        code = instr (.assign r (.literal (final.literalNumber (Bytes.ofString value))
          (final.descriptionNumber .literal (Expr.literalDescription value ignoreCase)))) ∧
        code.Within final := by
  refine (ensures_warnIf h _ _ _ _ _).bind ?_
  rintro _ w₁ ⟨s₁, hs₁, h₁, -⟩
  refine (ensures_warnIf h₁ _ _ _ _ _).bind ?_
  rintro _ w₂ ⟨s₂, hs₂, h₂, -⟩
  refine (Gen.ensures_literal h₂ _).bind ?_
  rintro constant w₃ ⟨s₃, hs₃, h₃, hc⟩
  refine (ensures_expected h₃ _ _).bind ?_
  rintro expected w₄ ⟨s₄, hs₄, h₄, he⟩
  refine (ensures_newResult h₄).bind ?_
  rintro slot w₅ ⟨rfl, h₅⟩
  refine ensures_pure ⟨s₄, hs₁.trans (hs₂.trans (hs₃.trans hs₄)), h₅, ?_⟩
  intro final hf
  obtain ⟨hc, hcl⟩ := hc final (hs₄.trans hf)
  obtain ⟨he, hel⟩ := he final hf
  exact ⟨by rw [hc, he]; rfl, hcl, hel⟩

theorem ensures_charClass (h : w.At session r p) (cx : Context) (region : Option Region)
    (cls : CharClass) :
    Ensures (Generate.charClass cx region cls) w fun code w' =>
      w'.Grown session (r + 1) p fun final =>
        code = instr (.assign r (.charClass (final.classNumber cls.byteSingles cls.byteRanges)
          (final.descriptionNumber .charClass cls.rawText) cls.inverted)) ∧
        code.Within final := by
  refine (ensures_warnIf h _ _ _ _ _).bind ?_
  rintro _ w₁ ⟨s₁, hs₁, h₁, -⟩
  refine (ensures_warnIf h₁ _ _ _ _ _).bind ?_
  rintro _ w₂ ⟨s₂, hs₂, h₂, -⟩
  refine (Gen.ensures_charClass h₂ _ _).bind ?_
  rintro constant w₃ ⟨s₃, hs₃, h₃, hc⟩
  refine (ensures_expected h₃ _ _).bind ?_
  rintro expected w₄ ⟨s₄, hs₄, h₄, he⟩
  refine (ensures_newResult h₄).bind ?_
  rintro slot w₅ ⟨rfl, h₅⟩
  refine ensures_pure ⟨s₄, hs₁.trans (hs₂.trans (hs₃.trans hs₄)), h₅, ?_⟩
  intro final hf
  obtain ⟨hc, hcl⟩ := hc final (hs₄.trans hf)
  obtain ⟨he, hel⟩ := he final hf
  exact ⟨by rw [hc, he], hcl, hel⟩

theorem ensures_predicate (h : w.At session r p) (negated : Bool) (code : UserCode) (env : Env) :
    Ensures (Generate.predicate negated code env) w fun out w' =>
      w'.Grown session (r + 1) p fun final =>
        out = Template.predicate negated r (final.predicateCall code env) ∧
        out.Within final := by
  refine (Gen.ensures_predicate h _ _).bind ?_
  rintro call w₁ ⟨s₁, hs₁, h₁, hc⟩
  refine (ensures_newResult h₁).bind ?_
  rintro slot w₂ ⟨rfl, h₂⟩
  refine (ensures_replaceResult h₂).bind ?_
  rintro slot w₃ ⟨rfl, h₃⟩
  refine ensures_pure ⟨s₁, hs₁, h₃, ?_⟩
  intro final hf
  obtain ⟨rfl, hl⟩ := hc final hf
  exact ⟨rfl, (Template.within_predicate ..).mpr hl⟩

theorem ensures_named {inner : Gen (Code × Env)} (h : w.At session r p) (name : String)
    (hi : ∀ w session, w.At session r p → Ensures inner w fun out w' =>
      out.2 = env ∧ w'.Grown session (r + 1) p (known out.1)) :
    Ensures (Generate.named name inner) w fun out w' =>
      out.2 = env ∧ w'.Grown session (r + 1) p fun final => ∃ expected body,
        expected = final.descriptionNumber .other name ∧ expected < final.descriptions.length ∧
        known body final ∧ out.1 = Template.named r expected body := by
  refine (ensures_expected h _ _).bind ?_
  rintro expected w₁ ⟨s₁, hs₁, h₁, he⟩
  refine (hi w₁ s₁ h₁).bind ?_
  rintro ⟨body, env'⟩ w₂ ⟨henv, s₂, hs₂, h₂, hk⟩
  refine (ensures_topResult h₂).bind ?_
  rintro slot w₃ ⟨rfl, h₃⟩
  refine (ensures_replaceResult h₃).bind ?_
  rintro slot w₄ ⟨rfl, h₄⟩
  refine ensures_pure ⟨henv, s₂, hs₁.trans hs₂, h₄, ?_⟩
  intro final hf
  obtain ⟨he, hl⟩ := he final (hs₂.trans hf)
  exact ⟨expected, body, he, hl, hk final hf, rfl⟩

theorem ensures_text {inner : Gen Code} (h : w.At session r p)
    (hi : ∀ w, w.At session r (p + 1) → Ensures inner w fun body w' =>
      w'.Grown session (r + 1) (p + 1) (known body)) :
    Ensures (Generate.text inner) w fun code w' =>
      w'.Grown session (r + 1) p fun final =>
        ∃ body, known body final ∧ code = Template.text r p body := by
  refine (ensures_newPosition h).bind ?_
  rintro start w₁ ⟨rfl, h₁⟩
  refine (hi w₁ h₁).bind ?_
  rintro body w₂ ⟨s₂, hs₂, h₂, hk⟩
  refine (ensures_releasePosition h₂).bind ?_
  rintro _ w₃ h₃
  refine (ensures_topResult h₃).bind ?_
  rintro slot w₄ ⟨rfl, h₄⟩
  refine (ensures_replaceResult h₄).bind ?_
  rintro slot w₅ ⟨rfl, h₅⟩
  exact ensures_pure ⟨s₂, hs₂, h₅, fun final hf => ⟨body, hk final hf, rfl⟩⟩

theorem ensures_action {inner : Gen (Code × Env)} (h : w.At session r p) (code : UserCode)
    (hi : ∀ w, w.At session r (p + 1) → Ensures inner w fun out w' =>
      out.2 = env ∧ w'.Grown session (r + 1) (p + 1) (known out.1)) :
    Ensures (Generate.action code inner) w fun out w' =>
      w'.Grown session (r + 1) p fun final => ∃ call body,
        call = final.actionCall code env ∧ call.index < final.actions.length ∧
        known body final ∧ out = Template.action r p call body := by
  refine (ensures_newPosition h).bind ?_
  rintro start w₁ ⟨rfl, h₁⟩
  refine (hi w₁ h₁).bind ?_
  rintro ⟨body, env'⟩ w₂ ⟨rfl, s₂, hs₂, h₂, hk⟩
  refine (Gen.ensures_action h₂ _ _).bind ?_
  rintro call w₃ ⟨s₃, hs₃, h₃, hc⟩
  refine (ensures_topResult h₃).bind ?_
  rintro slot w₄ ⟨rfl, h₄⟩
  refine (ensures_releasePosition h₄).bind ?_
  rintro _ w₅ h₅
  refine ensures_pure ⟨s₃, hs₂.trans hs₃, h₅, ?_⟩
  intro final hf
  obtain ⟨hc, hl⟩ := hc final hf
  exact ⟨call, body, hc, hl, hk final (hs₃.trans hf), rfl⟩

theorem ensures_optional {inner : Gen Code} (h : w.At session r p)
    (hi : ∀ w, w.At session r p → Ensures inner w fun body w' =>
      w'.Grown session (r + 1) p (known body)) :
    Ensures (Generate.optional inner) w fun code w' =>
      w'.Grown session (r + 1) p fun final =>
        ∃ body, known body final ∧ code = Template.optional r body := by
  refine (hi w h).bind ?_
  rintro body w₁ ⟨s₁, hs₁, h₁, hk⟩
  refine (ensures_topResult h₁).bind ?_
  rintro slot w₂ ⟨rfl, h₂⟩
  refine (ensures_replaceResult h₂).bind ?_
  rintro slot w₃ ⟨rfl, h₃⟩
  exact ensures_pure ⟨s₁, hs₁, h₃, fun final hf => ⟨body, hk final hf, rfl⟩⟩

theorem ensures_lookahead {inner : Gen Code} (h : w.At session r p) (negated : Bool)
    (hi : ∀ w, w.At session r (p + 1) → Ensures inner w fun body w' =>
      w'.Grown session (r + 1) (p + 1) (known body)) :
    Ensures (Generate.lookahead negated inner) w fun code w' =>
      w'.Grown session (r + 1) p fun final =>
        ∃ body, known body final ∧ code = Template.lookahead negated r p body := by
  refine (ensures_newPosition h).bind ?_
  rintro start w₁ ⟨rfl, h₁⟩
  refine (hi w₁ h₁).bind ?_
  rintro body w₂ ⟨s₂, hs₂, h₂, hk⟩
  refine (ensures_releasePosition h₂).bind ?_
  rintro _ w₃ h₃
  refine (ensures_topResult h₃).bind ?_
  rintro slot w₄ ⟨rfl, h₄⟩
  refine (ensures_replaceResult h₄).bind ?_
  rintro slot w₅ ⟨rfl, h₅⟩
  cases negated with
  | false => exact ensures_pure ⟨s₂, hs₂, h₅, fun final hf => ⟨body, hk final hf, rfl⟩⟩
  | true =>
    refine (ensures_replaceResult h₅).bind ?_
    rintro slot w₆ ⟨rfl, h₆⟩
    exact ensures_pure ⟨s₂, hs₂, h₆, fun final hf => ⟨body, hk final hf, rfl⟩⟩

theorem ensures_enough (h : w.At session (r + 1) (p + 1)) (least : UInt32) :
    Ensures (Generate.enough least r p) w fun code w' =>
      code = Template.enough least r p ∧ w'.At session (r + 1) p := by
  refine (ensures_releasePosition h).bind ?_
  rintro _ w₁ h₁
  refine (ensures_replaceResult h₁).bind ?_
  rintro slot w₂ ⟨rfl, h₂⟩
  exact ensures_pure ⟨rfl, h₂⟩

theorem ensures_repeated {inner : Gen Code} (h : w.At session r p) (quantifier : Quantifier)
    (hi : ∀ w, w.At session (r + 1) (if 0 < quantifier.least then p + 1 else p) →
      Ensures inner w fun body w' =>
        w'.Grown session (r + 2) (if 0 < quantifier.least then p + 1 else p) (known body)) :
    Ensures (Generate.repeated quantifier inner) w fun code w' =>
      w'.Grown session (r + 1) p fun final =>
        ∃ body, known body final ∧ code = Template.repeated quantifier r p body := by
  unfold Generate.repeated
  by_cases hq : 0 < quantifier.least
  · simp only [if_pos hq] at hi ⊢
    have hsave : Ensures (some <$> newPosition) w fun start? w' =>
        start? = some p ∧ w'.At session r (p + 1) :=
      ((ensures_newPosition h).mono fun _ _ hs => ⟨congrArg some hs.1, hs.2⟩).map some
    refine hsave.bind ?_
    rintro _ w₁ ⟨rfl, h₁⟩
    refine (ensures_newResult h₁).bind ?_
    rintro slot w₂ ⟨rfl, h₂⟩
    refine (ensures_topResult h₂).bind ?_
    rintro slot w₃ ⟨rfl, h₃⟩
    refine (hi w₃ h₃).bind ?_
    rintro body w₄ ⟨s₄, hs₄, h₄, hk⟩
    refine (ensures_popResult h₄).bind ?_
    rintro slot w₅ ⟨rfl, h₅⟩
    refine (ensures_enough h₅ _).bind ?_
    rintro _ w₆ ⟨rfl, h₆⟩
    refine ensures_pure ⟨s₄, hs₄, h₆, fun final hf => ⟨body, hk final hf, ?_⟩⟩
    rw [Template.repeated, if_pos hq]
    rfl
  · simp only [if_neg hq] at hi ⊢
    have hsave : Ensures (pure (none : Option Nat)) w fun start? w' =>
        start? = none ∧ w'.At session r p := ensures_pure ⟨rfl, h⟩
    refine hsave.bind ?_
    rintro _ w₁ ⟨rfl, h₁⟩
    refine (ensures_newResult h₁).bind ?_
    rintro slot w₂ ⟨rfl, h₂⟩
    refine (ensures_topResult h₂).bind ?_
    rintro slot w₃ ⟨rfl, h₃⟩
    refine (hi w₃ h₃).bind ?_
    rintro body w₄ ⟨s₄, hs₄, h₄, hk⟩
    refine (ensures_popResult h₄).bind ?_
    rintro slot w₅ ⟨rfl, h₅⟩
    refine ensures_pure ⟨s₄, hs₄, h₅, fun final hf => ⟨body, hk final hf, ?_⟩⟩
    rw [Template.repeated, if_neg hq]
    rfl

theorem ensures_element {inner : Gen (Code × Env)} (done : Nat) (h : w.At session (r + done) p)
    (start : Nat)
    (hi : ∀ w, w.At session (r + done) p → Ensures inner w fun out w' =>
      out.2 = env ∧ w'.Grown session (r + done + 1) p (known out.1)) :
    Ensures (Generate.element (done + 1) r start inner) w fun out w' =>
      out.2 = env ∧ w'.Grown session (r + done + 1) p fun final =>
        ∃ body, known body final ∧ out.1 = Template.element done r start body := by
  refine (hi w h).bind ?_
  rintro ⟨body, env'⟩ w₁ ⟨henv, s₁, hs₁, h₁, hk⟩
  refine (ensures_topResult h₁).bind ?_
  rintro slot w₂ ⟨rfl, h₂⟩
  refine (ensures_resultsFrom h₂ r).bind ?_
  rintro slots w₃ ⟨rfl, h₃⟩
  refine ensures_pure ⟨henv, s₁, hs₁, h₃, fun final hf => ⟨body, hk final hf, ?_⟩⟩
  have hdone : (List.range' r (r + done + 1 - r)).reverse.tail =
      (List.range' r done).reverse := by
    rw [Nat.add_assoc, Nat.add_sub_cancel_left, List.range'_concat, List.reverse_append]
    rfl
  simp only [hdone, Template.element]

theorem ensures_sequence {elements : Nat → Gen (Code × Env)} {scope : Scope} {count : Nat}
    (h : w.At session scope.slot p)
    (hi : ∀ w, w.At session scope.slot (p + 1) → Ensures (elements p) w fun out w' =>
      out.2 = env ∧ w'.Grown session (scope.slot + count) (p + 1) (known out.1)) :
    Ensures (Generate.sequence scope count elements) w fun out w' =>
      out.2 = env ∧ w'.Grown session (scope.slot + 1) p fun final =>
        ∃ body, known body final ∧ (final.pendingCall scope.action env).Within final ∧
          out.1 = Template.sequence count scope.slot p (final.pendingCall scope.action env)
            body := by
  refine (ensures_newPosition h).bind ?_
  rintro start w₁ ⟨rfl, h₁⟩
  refine (hi w₁ h₁).bind ?_
  rintro ⟨body, env'⟩ w₂ ⟨rfl, s₂, hs₂, h₂, hk⟩
  refine (ensures_popResults h₂).bind ?_
  rintro slots w₃ ⟨rfl, h₃⟩
  refine (ensures_releasePosition h₃).bind ?_
  rintro _ w₄ h₄
  -- With the call of the action at hand, or with none, the rest is one assignment.
  have hend : ∀ call w₅, w₅.Grown s₂ scope.slot start (fun final =>
      call = final.pendingCall scope.action env' ∧ call.Within final) →
      Ensures (do
        let assign := Instruction.assign (← newResult)
          (.wrapped start (List.range' scope.slot count))
        return (instr (.save start) ++ loop .sequence (all [body, call, instr assign]), env'))
        w₅ fun out w' => out.2 = env' ∧ w'.Grown session (scope.slot + 1) start fun final =>
          ∃ body, known body final ∧ (final.pendingCall scope.action env').Within final ∧
            out.1 = Template.sequence count scope.slot start
              (final.pendingCall scope.action env') body := by
    rintro call w₅ ⟨s₅, hs₅, h₅, hc⟩
    refine (ensures_newResult h₅).bind ?_
    rintro slot w₆ ⟨rfl, h₆⟩
    refine ensures_pure ⟨rfl, s₅, hs₂.trans hs₅, h₆, fun final hf => ?_⟩
    obtain ⟨rfl, hl⟩ := hc final hf
    exact ⟨body, hk final (hs₅.trans hf), hl, rfl⟩
  cases haction : scope.action with
  | none =>
    rw [haction] at hend
    exact hend skip w₄ ⟨s₂, .refl _, h₄, fun final _ => ⟨rfl, trivial⟩⟩
  | some action =>
    rw [haction] at hend
    have hcall : Ensures ((instr <| .act ·) <$> Gen.action action env') w₄ fun call w' =>
        w'.Grown s₂ scope.slot start fun final =>
          call = final.pendingCall (some action) env' ∧ call.Within final := by
      refine ((Gen.ensures_action h₄ action env').mono ?_).map _
      rintro call w' ⟨s', hs', h', hc⟩
      refine ⟨s', hs', h', fun final hf => ?_⟩
      obtain ⟨rfl, hl⟩ := hc final hf
      exact ⟨rfl, hl⟩
    exact hcall.bind hend

theorem ensures_alternative {inner : Gen Code} (h : w.At session r p) (number : Nat)
    (hi : ∀ w, w.At session r p → Ensures inner w fun body w' =>
      w'.Grown session (r + 1) p (known body)) :
    Ensures (Generate.alternative number inner) w fun code w' =>
      w'.Grown session r p fun final =>
        ∃ body, known body final ∧ code = Template.alternative number r body := by
  refine (hi w h).bind ?_
  rintro body w₁ ⟨s₁, hs₁, h₁, hk⟩
  refine (ensures_popResult h₁).bind ?_
  rintro slot w₂ ⟨rfl, h₂⟩
  exact ensures_pure ⟨s₁, hs₁, h₂, fun final hf => ⟨body, hk final hf, rfl⟩⟩

end Generate

namespace Expr

variable {w : Workspace} {session : Session} {p : Nat}

/-- The code is the closed form over the tables, and has no number they do not have. -/
def CodeOf (e : Expr) (scope : Scope) (start : Nat) (code : Code) (tables : Session) : Prop :=
  code = e.lower tables scope start ∧ code.Within tables

def ElementsCodeOf (elements : List Expr) (slot start done : Nat) (env : Env) (code : Code)
    (tables : Session) : Prop :=
  code = lowerElements tables slot start done env elements ∧ code.Within tables

/-- In step with its scope, an expression is generated in closed form. -/
def Lowers (e : Expr) : Prop :=
  ∀ (cx : Context) (scope : Scope) (w : Workspace) (session : Session) (p : Nat),
    w.At session scope.slot p →
    Ensures (e.generate cx scope) w fun out w' =>
      out.2 = e.envAfter scope.slot scope.env ∧
      w'.Grown session (scope.slot + 1) p (e.CodeOf scope p out.1)

theorem Lowers.code {e : Expr} (he : e.Lowers) (cx : Context) (scope : Scope)
    (h : w.At session scope.slot p) :
    Ensures (Prod.fst <$> e.generate cx scope) w fun code w' =>
      w'.Grown session (scope.slot + 1) p (e.CodeOf scope p code) := by
  refine ((he cx scope w session p h).mono ?_).map Prod.fst
  exact fun _ _ hout => hout.2

theorem ensures_elements {elements : List Expr} (he : ∀ e ∈ elements, e.Lowers) (cx : Context)
    (slot start done : Nat) (env : Env) (w : Workspace) (session : Session)
    (h : w.At session (slot + done) (start + 1)) :
    Ensures (generateElements cx slot start done env elements) w fun out w' =>
      out.2 = envAfterAll (slot + done) env elements ∧
      w'.Grown session (slot + done + elements.length) (start + 1)
        (ElementsCodeOf elements slot start done env out.1) := by
  induction elements generalizing done env w session with
  | nil => exact ensures_pure ⟨rfl, session, .refl _, h, fun _ _ => ⟨rfl, trivial⟩⟩
  | cons first rest ih =>
    have hfirst := he first List.mem_cons_self cx ⟨slot + done, env, none⟩
    have hrest := ih fun e hmem => he e (List.mem_cons_of_mem first hmem)
    refine (Generate.ensures_element done h start fun w hw =>
      hfirst w session (start + 1) hw).bind ?_
    rintro ⟨code, env'⟩ w₁ ⟨rfl, s₁, hs₁, h₁, hk₁⟩
    refine (hrest (done + 1) _ w₁ s₁ h₁).bind ?_
    rintro ⟨more, env''⟩ w₂ ⟨rfl, s₂, hs₂, h₂, hk₂⟩
    have hcount : slot + (done + 1) + rest.length = slot + done + (first :: rest).length := by
      rw [List.length_cons]
      omega
    refine ensures_pure ⟨rfl, s₂, hs₁.trans hs₂, hcount ▸ h₂, fun final hf => ?_⟩
    obtain ⟨body, ⟨hbody, hb⟩, hcode⟩ := hk₁ final (hs₂.trans hf)
    obtain ⟨hmore, hm⟩ := hk₂ final hf
    subst hbody hcode hmore
    exact ⟨rfl, (Template.within_element ..).mpr hb, hm⟩

theorem ensures_alternatives {alternatives : List Expr} (hne : alternatives ≠ [])
    (he : ∀ e ∈ alternatives, e.Lowers) (cx : Context) (scope : Scope) (number : Nat)
    (w : Workspace) (session : Session) (h : w.At session scope.slot p) :
    Ensures (generateAlternatives cx scope number alternatives) w fun code w' =>
      w'.Grown session (scope.slot + 1) p fun final =>
        code = lowerAlternatives final scope p number alternatives ∧ code.Within final := by
  induction alternatives generalizing number w session with
  | nil => exact absurd rfl hne
  | cons first rest ih =>
    have hfirst := he first List.mem_cons_self
    cases rest with
    | nil =>
      refine (hfirst cx (scope.branch scope.slot) w session p h).bind ?_
      rintro ⟨code, env⟩ w₁ ⟨-, s₁, hs₁, h₁, hk₁⟩
      refine ensures_pure ⟨s₁, hs₁, h₁, fun final hf => ?_⟩
      obtain ⟨hcode, hc⟩ := hk₁ final hf
      refine ⟨by rw [lowerAlternatives, ← hcode], ?_⟩
      simpa [Code.Within] using hc
    | cons second rest =>
      have hrest := ih (List.cons_ne_nil _ _) fun e hmem => he e (List.mem_cons_of_mem first hmem)
      refine (Generate.ensures_alternative h number fun w hw =>
        hfirst.code cx (scope.branch scope.slot) hw).bind ?_
      rintro code w₁ ⟨s₁, hs₁, h₁, hk₁⟩
      refine (hrest (number + 1) w₁ s₁ h₁).bind ?_
      rintro more w₂ ⟨s₂, hs₂, h₂, hk₂⟩
      refine ensures_pure ⟨s₂, hs₁.trans hs₂, h₂, fun final hf => ?_⟩
      obtain ⟨body, ⟨hbody, hb⟩, hcode⟩ := hk₁ final (hs₂.trans hf)
      obtain ⟨hmore, hm⟩ := hk₂ final hf
      subst hbody hcode hmore
      exact ⟨by rw [lowerAlternatives], (Template.within_alternative ..).mpr hb, hm⟩

/-- Every expression is generated in closed form. -/
theorem lowers (e : Expr) : e.Lowers := by
  induction e using Expr.induction with
  | named region name inner ih =>
    intro cx scope w session p h
    refine ensures_inStep h.results_live ?_ fun _ _ out => out.2.results_live
    refine (Generate.ensures_named h name fun w s hw => ih cx scope w s p hw).mono ?_
    rintro ⟨code, env⟩ w' ⟨rfl, s', hs', h', hk⟩
    refine ⟨by rw [envAfter], s', hs', h', fun final hf => ?_⟩
    obtain ⟨expected, body, rfl, hl, ⟨rfl, hb⟩, rfl⟩ := hk final hf
    exact ⟨by rw [lower], (Template.within_named ..).mpr ⟨hb, hl⟩⟩
  | choice region alternatives ih =>
    intro cx scope w session p h
    cases alternatives with
    | nil =>
      refine ensures_inStep h.results_live ?_ fun _ _ out => out.2.results_live
      refine (ensures_newResult h).bind ?_
      rintro slot w₁ ⟨rfl, h₁⟩
      refine ensures_pure ⟨by rw [envAfter], session, .refl _, h₁, fun final _ => ?_⟩
      exact ⟨by rw [lower], trivial⟩
    | cons first rest =>
      refine ensures_inStep h.results_live ?_ fun _ _ out => out.2.results_live
      refine (ensures_alternatives (List.cons_ne_nil first rest) ih cx scope 1 w session h).bind ?_
      rintro code w₁ ⟨s₁, hs₁, h₁, hk⟩
      refine ensures_pure ⟨by rw [envAfter], s₁, hs₁, h₁, fun final hf => ?_⟩
      obtain ⟨rfl, hc⟩ := hk final hf
      refine ⟨?_, hc⟩
      rw [lower]
      exact fun hnil => absurd hnil (List.cons_ne_nil first rest)
  | sequence region elements ih =>
    intro cx scope w session p h
    refine ensures_inStep h.results_live ?_ fun _ _ out => out.2.results_live
    refine (Generate.ensures_sequence h fun w hw =>
      ensures_elements ih cx scope.slot p 0 scope.env w session hw).mono ?_
    rintro ⟨code, env⟩ w' ⟨rfl, s', hs', h', hk⟩
    refine ⟨by rw [envAfter]; rfl, s', hs', h', fun final hf => ?_⟩
    obtain ⟨body, ⟨rfl, hb⟩, hcall, rfl⟩ := hk final hf
    exact ⟨by rw [lower]; rfl, (Template.within_sequence ..).mpr ⟨hb, hcall⟩⟩
  | labeled region label inner ih =>
    intro cx scope w session p h
    refine ensures_inStep h.results_live ?_ fun _ _ out => out.2.results_live
    refine (ih cx ((scope.bind label).branch scope.slot) w session p h).bind ?_
    rintro ⟨code, env⟩ w₁ ⟨-, s₁, hs₁, h₁, hk⟩
    refine ensures_pure ⟨by rw [envAfter]; rfl, s₁, hs₁, h₁, fun final hf => ?_⟩
    obtain ⟨rfl, hc⟩ := hk final hf
    exact ⟨by rw [lower], hc⟩
  | text region inner ih =>
    intro cx scope w session p h
    refine ensures_inStep h.results_live ?_ fun _ _ out => out.2.results_live
    refine (Generate.ensures_text h fun w hw =>
      ih.code cx (scope.branch scope.slot) hw).bind ?_
    rintro code w₁ ⟨s₁, hs₁, h₁, hk⟩
    refine ensures_pure ⟨by rw [envAfter], s₁, hs₁, h₁, fun final hf => ?_⟩
    obtain ⟨body, ⟨rfl, hb⟩, rfl⟩ := hk final hf
    exact ⟨by rw [lower], (Template.within_text ..).mpr hb⟩
  | optional region inner ih =>
    intro cx scope w session p h
    refine ensures_inStep h.results_live ?_ fun _ _ out => out.2.results_live
    refine (Generate.ensures_optional h fun w hw =>
      ih.code cx (scope.branch scope.slot) hw).bind ?_
    rintro code w₁ ⟨s₁, hs₁, h₁, hk⟩
    refine ensures_pure ⟨by rw [envAfter], s₁, hs₁, h₁, fun final hf => ?_⟩
    obtain ⟨body, ⟨rfl, hb⟩, rfl⟩ := hk final hf
    exact ⟨by rw [lower], (Template.within_optional ..).mpr hb⟩
  | repeated region quantifier inner ih =>
    intro cx scope w session p h
    refine ensures_inStep h.results_live ?_ fun _ _ out => out.2.results_live
    refine (Generate.ensures_repeated h quantifier fun w hw =>
      ih.code cx (scope.branch (scope.slot + 1)) hw).bind ?_
    rintro code w₁ ⟨s₁, hs₁, h₁, hk⟩
    refine ensures_pure ⟨by rw [envAfter], s₁, hs₁, h₁, fun final hf => ?_⟩
    obtain ⟨body, ⟨rfl, hb⟩, rfl⟩ := hk final hf
    exact ⟨by rw [lower], (Template.within_repeated ..).mpr hb⟩
  | lookahead region negated inner ih =>
    intro cx scope w session p h
    refine ensures_inStep h.results_live ?_ fun _ _ out => out.2.results_live
    refine (Generate.ensures_lookahead h negated fun w hw =>
      ih.code cx (scope.branch scope.slot) hw).bind ?_
    rintro code w₁ ⟨s₁, hs₁, h₁, hk⟩
    refine ensures_pure ⟨by rw [envAfter], s₁, hs₁, h₁, fun final hf => ?_⟩
    obtain ⟨body, ⟨rfl, hb⟩, rfl⟩ := hk final hf
    exact ⟨by rw [lower], (Template.within_lookahead ..).mpr hb⟩
  | predicate region negated code =>
    intro cx scope w session p h
    refine ensures_inStep h.results_live ?_ fun _ _ out => out.2.results_live
    refine (Generate.ensures_predicate h negated code scope.env).bind ?_
    rintro out w₁ ⟨s₁, hs₁, h₁, hk⟩
    refine ensures_pure ⟨by rw [envAfter], s₁, hs₁, h₁, fun final hf => ?_⟩
    obtain ⟨rfl, hc⟩ := hk final hf
    exact ⟨by rw [lower], hc⟩
  | action region code inner ih =>
    intro cx scope w session p h
    refine ensures_inStep h.results_live ?_ fun _ _ out => out.2.results_live
    by_cases hseq : inner.isSequence = true
    · rw [if_pos hseq]
      refine (ih.code cx (scope.withAction code) h).bind ?_
      rintro out w₁ ⟨s₁, hs₁, h₁, hk⟩
      refine ensures_pure ⟨by rw [envAfter], s₁, hs₁, h₁, fun final hf => ?_⟩
      obtain ⟨rfl, hc⟩ := hk final hf
      exact ⟨by rw [lower, if_pos hseq], hc⟩
    · rw [if_neg hseq]
      refine (Generate.ensures_action h code fun w hw =>
        ih cx (scope.branch scope.slot) w session (p + 1) hw).bind ?_
      rintro out w₁ ⟨s₁, hs₁, h₁, hk⟩
      refine ensures_pure ⟨by rw [envAfter], s₁, hs₁, h₁, fun final hf => ?_⟩
      obtain ⟨call, body, rfl, hl, ⟨rfl, hb⟩, rfl⟩ := hk final hf
      exact ⟨by rw [lower, if_neg hseq]; rfl, (Template.within_action ..).mpr ⟨hb, hl⟩⟩
  | ruleRef region name =>
    intro cx scope w session p h
    refine ensures_inStep h.results_live ?_ fun _ _ out => out.2.results_live
    refine (ensures_newResult h).bind ?_
    rintro slot w₁ ⟨rfl, h₁⟩
    refine ensures_pure ⟨by rw [envAfter], session, .refl _, h₁, fun final _ => ?_⟩
    exact ⟨by rw [lower], trivial⟩
  | literal region value ignoreCase =>
    intro cx scope w session p h
    refine ensures_inStep h.results_live ?_ fun _ _ out => out.2.results_live
    refine (Generate.ensures_literal h cx region value ignoreCase).bind ?_
    rintro code w₁ ⟨s₁, hs₁, h₁, hk⟩
    refine ensures_pure ⟨by rw [envAfter], s₁, hs₁, h₁, fun final hf => ?_⟩
    obtain ⟨rfl, hc⟩ := hk final hf
    exact ⟨by rw [lower], hc⟩
  | charClass region cls =>
    intro cx scope w session p h
    refine ensures_inStep h.results_live ?_ fun _ _ out => out.2.results_live
    refine (Generate.ensures_charClass h cx region cls).bind ?_
    rintro code w₁ ⟨s₁, hs₁, h₁, hk⟩
    refine ensures_pure ⟨by rw [envAfter], s₁, hs₁, h₁, fun final hf => ?_⟩
    obtain ⟨rfl, hc⟩ := hk final hf
    exact ⟨by rw [lower], hc⟩
  | any region =>
    intro cx scope w session p h
    refine ensures_inStep h.results_live ?_ fun _ _ out => out.2.results_live
    refine (ensures_newResult h).bind ?_
    rintro slot w₁ ⟨rfl, h₁⟩
    refine ensures_pure ⟨by rw [envAfter], session, .refl _, h₁, fun final _ => ?_⟩
    exact ⟨by rw [lower], trivial⟩

end Expr

namespace Rule

/-- A rule is generated in closed form, and leaves no slot live. -/
theorem ensures_generate (policy : Policy) (rule : Rule) {w : Workspace} {session : Session}
    (h : w.At session 0 0) :
    Ensures (rule.generate policy) w fun function w' =>
      function.result = 0 ∧ function.results.live = 0 ∧ function.positions.live = 0 ∧
      w'.Grown session 0 0 (rule.expression.CodeOf Scope.root 0 function.body) := by
  refine (rule.expression.lowers ⟨policy, rule.region⟩ Scope.root w session 0 h).bind ?_
  rintro ⟨body, env⟩ w₁ ⟨-, s₁, hs₁, h₁, hk⟩
  refine (ensures_popResult h₁).bind ?_
  rintro result w₂ ⟨rfl, h₂⟩
  refine (ensures_assertLive h₂.results_live).bind ?_
  rintro _ w₃ rfl
  refine (ensures_assertLive h₂.positions_live).bind ?_
  rintro _ w₄ rfl
  exact ensures_of_ok rfl ⟨rfl, h₂.results_live, h₂.positions_live, s₁, hs₁, h₂, hk⟩

end Rule

namespace Session

/-- Compiling a rule ends with its function or is stopped by a warning. -/
theorem compileRule_cases (policy : Policy) (session : Session) (rule : Rule) :
    (∃ function grown, session.compileRule policy rule = (.ok function, grown) ∧
      function.result = 0 ∧ function.results.live = 0 ∧ function.positions.live = 0 ∧
      ∀ final, grown.Extends final →
        rule.expression.CodeOf Scope.root 0 function.body final) ∨
    ∃ diagnostic grown,
      session.compileRule policy rule = (.error (.ofDiagnostic diagnostic), grown) := by
  have h : Ensures (rule.generate policy) { toSession := session } _ :=
    rule.ensures_generate policy ⟨rfl, rfl, rfl⟩
  unfold compileRule EStateM.run
  cases hrun : rule.generate policy { toSession := session } with
  | ok function w =>
    obtain ⟨hr, hresults, hpositions, s, hs, hw, hk⟩ := h.of_eq_ok hrun
    obtain rfl := hw.session_eq
    exact Or.inl ⟨function, w.toSession, rfl, hr, hresults, hpositions, hk⟩
  | error error w =>
    simp only [Ensures, hrun] at h
    obtain ⟨diagnostic, rfl⟩ := h
    exact Or.inr ⟨diagnostic, w.toSession, rfl⟩

theorem eq_ok_of_isOk {policy : Policy} {session : Session} {rule : Rule}
    (h : (session.compileRule policy rule).1.isOk = true) :
    ∃ function grown, session.compileRule policy rule = (.ok function, grown) := by
  revert h
  rcases session.compileRule policy rule with ⟨_ | function, grown⟩
  · exact nofun
  · exact fun _ => ⟨function, grown, rfl⟩

theorem result_compileRule {policy : Policy} {session grown : Session} {rule : Rule}
    {function : RuleFunction} (h : session.compileRule policy rule = (.ok function, grown)) :
    function.result = 0 := by
  rcases session.compileRule_cases policy rule with
    ⟨function', grown', hrun, hresult, -⟩ | ⟨diagnostic, grown', hrun⟩
  · rw [h] at hrun
    cases hrun
    exact hresult
  · rw [h] at hrun
    cases hrun

/-- The body of a compiled rule is the closed form over every session that goes on from there. -/
theorem codeOf_compileRule {policy : Policy} {session : Session} {rule : Rule}
    {function : RuleFunction} {grown tables : Session}
    (h : session.compileRule policy rule = (.ok function, grown)) (hext : grown.Extends tables) :
    rule.expression.CodeOf Scope.root 0 function.body tables := by
  rcases session.compileRule_cases policy rule with
    ⟨function', grown', hrun, -, -, -, hcode⟩ | ⟨diagnostic, grown', hrun⟩
  · rw [h] at hrun
    cases hrun
    exact hcode tables hext
  · rw [h] at hrun
    cases hrun

end Session

end Backtrack
