import Backtrack.Proofs.Generation.Growth
import Backtrack.Proofs.Generation.Returns

/-!
# What generation meets on its way

Generation goes through the nodes of an expression from left to right and is done with a node after
the nodes inside it. What it leaves behind in the session, apart from the entries of tables, are the
warnings of the nodes and the namespaces of their user code, in this order.
-/

namespace Backtrack

set_option autoImplicit false

mutual

/-- The nodes of an expression from left to right, each after the nodes inside it. -/
def Expr.nodes (e : Expr) : List Expr :=
  (match e with
  | .named _ _ inner | .labeled _ _ inner | .text _ inner | .optional _ inner
  | .repeated _ _ inner | .lookahead _ _ inner | .action _ _ inner => inner.nodes
  | .choice _ parts | .sequence _ parts => Expr.nodesAll parts
  | .predicate .. | .ruleRef .. | .literal .. | .charClass .. | .any _ => []) ++ [e]

def Expr.nodesAll : List Expr → List Expr
  | [] => []
  | first :: rest => first.nodes ++ Expr.nodesAll rest

end

/-- The characters that a part is written with. -/
def ClassPart.characters : ClassPart → List Char
  | .single c => [c]
  | .range low high => [low, high]

/-- The warnings about a literal or a class with these characters. -/
def Diagnostic.about (place : Option Region) (value : String) (ignoreCase : Bool)
    (characters : List Char) : List Diagnostic :=
  (if ignoreCase then [⟨.caseInsensitive, place, value⟩] else []) ++
    if characters.any (0xFF < ·.toNat) then [⟨.nonByteCharacter, place, value⟩] else []

/-- The warnings about a node itself. One without a region is placed at its rule. -/
def Expr.warnings (rule : Option Region) : Expr → List Diagnostic
  | .literal region value ignoreCase =>
    Diagnostic.about (region.or rule) value ignoreCase value.toList
  | .charClass region cls =>
    Diagnostic.about (region.or rule) cls.rawText cls.ignoreCase
      (cls.parts.flatMap ClassPart.characters)
  | _ => []

/-- The user code of a node itself. -/
def Expr.userCode? : Expr → Option UserCode
  | .predicate _ _ code | .action _ code _ => some code
  | _ => none

/-- Makes namespaces known, in this order. -/
def UserTables.touchAll (spaces : OrderedMap String (Option String)) (met : List UserCode) :
    OrderedMap String (Option String) :=
  met.foldl (fun spaces code => spaces.insertIfNew code.space none) spaces

/-- From one session to the other, these warnings were raised and this user code was met. -/
structure Session.Records (warnings : List Diagnostic) (met : List UserCode)
    (before after : Session) : Prop where
  diagnostics : after.diagnostics = before.diagnostics ++ warnings
  spaces : after.user.spaces = UserTables.touchAll before.user.spaces met

namespace Session

theorem Records.refl (session : Session) : Records [] [] session session :=
  ⟨(List.append_nil _).symm, rfl⟩

theorem Records.trans {warnings warnings' : List Diagnostic} {met met' : List UserCode}
    {a b c : Session} (hab : Records warnings met a b) (hbc : Records warnings' met' b c) :
    Records (warnings ++ warnings') (met ++ met') a c := by
  refine ⟨?_, ?_⟩
  · rw [hbc.diagnostics, hab.diagnostics, List.append_assoc]
  · rw [hbc.spaces, hab.spaces]
    exact List.foldl_append.symm

end Session

namespace Gen

variable {α β : Type} {warnings warnings' : List Diagnostic} {met met' : List UserCode}

/-- Where the step succeeds, it has raised these warnings and has met this user code. -/
def Records (warnings : List Diagnostic) (met : List UserCode) (x : Gen α) : Prop :=
  ∀ w a w', x w = .ok a w' → w.toSession.Records warnings met w'.toSession

theorem Records.bind {x : Gen α} {f : α → Gen β} (hx : Records warnings met x)
    (hf : ∀ a, Records warnings' met' (f a)) :
    Records (warnings ++ warnings') (met ++ met') (x >>= f) := by
  intro w b w'' h
  obtain ⟨a, w', hstep, hrest⟩ := eq_ok_of_bind h
  exact (hx w a w' hstep).trans (hf a w' b w'' hrest)

/-- A step that records nothing may come before. -/
theorem Records.after {x : Gen α} {f : α → Gen β} (hf : ∀ a, Records warnings met (f a))
    (hx : Records [] [] x) : Records warnings met (x >>= f) := hx.bind hf

/-- Steps that record nothing may follow. -/
theorem Records.before {x : Gen α} {f : α → Gen β} (hx : Records warnings met x)
    (hf : ∀ a, Records [] [] (f a)) : Records warnings met (x >>= f) := by
  have h := hx.bind hf
  rwa [List.append_nil, List.append_nil] at h

theorem Blind.records {x : Gen α} (h : Blind x) : Records [] [] x := by
  intro w a w' hx
  have hsame : x w = withSession w.toSession (x w) := h.same w w.toSession
  rw [hx] at hsame
  obtain ⟨-, hw⟩ := EStateM.Result.ok.inj hsame
  rw [hw]
  exact .refl _

theorem Records.map {x : Gen α} (f : α → β) (hx : Records warnings met x) :
    Records warnings met (f <$> x) := by
  rw [map_eq_pure_bind]
  exact hx.before fun a => (blind_pure (f a)).records

theorem records_inStep (scope : Scope) {x : Gen α} (hx : Records warnings met x) :
    Records warnings met (inStep scope x) := by
  refine .after (fun _ => hx.before fun out => ?_) (blind_assertLive (fun _ _ => rfl) _).records
  exact ((blind_assertLive (fun _ _ => rfl) _).bind fun _ => blind_pure out).records

theorem records_literal (bytes : Bytes) : Records [] [] (Gen.literal bytes) := by
  intro w a w' h
  cases h
  exact ⟨(List.append_nil _).symm, rfl⟩

theorem records_charClass (singles : Bytes) (ranges : List (UInt8 × UInt8)) :
    Records [] [] (Gen.charClass singles ranges) := by
  intro w a w' h
  cases h
  exact ⟨(List.append_nil _).symm, rfl⟩

theorem records_expected (kind : ExpectedKind) (description : String) :
    Records [] [] (Gen.expected kind description) := by
  intro w a w' h
  cases h
  exact ⟨(List.append_nil _).symm, rfl⟩

theorem records_predicate (code : UserCode) (env : Env) :
    Records [] [code] (Gen.predicate code env) := by
  intro w a w' h
  cases h
  exact ⟨(List.append_nil _).symm, rfl⟩

theorem records_action (code : UserCode) (env : Env) :
    Records [] [code] (Gen.action code env) := by
  intro w a w' h
  cases h
  exact ⟨(List.append_nil _).symm, rfl⟩

/-- A strict step that would have to warn does not succeed. -/
theorem records_warnIf (condition : Bool) (cx : Context) (kind : DiagnosticKind)
    (region : Option Region) (value : String) :
    Records (if condition then [⟨kind, region.or cx.region, value⟩] else []) []
      (warnIf condition cx kind region value) := by
  cases condition with
  | false => exact (blind_pure _).records
  | true =>
    intro w a w' h
    change warn cx kind region value w = .ok a w' at h
    unfold warn at h
    cases hpolicy : cx.policy with
    | strict =>
      rw [hpolicy] at h
      cases h
    | collecting =>
      rw [hpolicy] at h
      cases h
      exact ⟨rfl, rfl⟩

end Gen

theorem Bytes.isNarrow_eq_not (c : Char) : isNarrow c = ! decide (0xFF < c.toNat) := by
  rw [isNarrow, ← decide_not, decide_eq_decide, Nat.not_lt]

theorem Bytes.not_all_isNarrow_eq (characters : List Char) :
    (! characters.all isNarrow) = characters.any (0xFF < ·.toNat) := by
  rw [List.not_all_eq_any_not]
  congr 1
  funext c
  rw [isNarrow_eq_not, Bool.not_not]

/-- The parts of a class have the characters of its singles and of its ranges. -/
theorem CharClass.isWide_eq (cls : CharClass) :
    cls.isWide = (cls.parts.flatMap ClassPart.characters).any (0xFF < ·.toNat) := by
  rw [Bool.eq_iff_iff]
  simp only [isWide, Bool.or_eq_true, List.any_eq_true, Bytes.isNarrow_eq_not, Bool.not_not,
    List.mem_flatMap]
  constructor
  · rintro (⟨c, hc, hwide⟩ | ⟨⟨low, high⟩, hrange, hwide⟩)
    · exact ⟨c, ⟨.single c, mem_singles.mp hc, List.mem_singleton_self c⟩, hwide⟩
    · have hpart := mem_ranges.mp hrange
      rcases hwide with hwide | hwide
      · exact ⟨low, ⟨_, hpart, List.mem_cons_self⟩, hwide⟩
      · exact ⟨high, ⟨_, hpart, List.mem_cons_of_mem _ List.mem_cons_self⟩, hwide⟩
  · rintro ⟨c, ⟨part, hpart, hc⟩, hwide⟩
    cases part with
    | single alone =>
      obtain rfl := List.mem_singleton.mp hc
      exact Or.inl ⟨c, mem_singles.mpr hpart, hwide⟩
    | range low high =>
      refine Or.inr ⟨(low, high), mem_ranges.mpr hpart, ?_⟩
      rcases List.mem_cons.mp hc with rfl | hc
      · exact Or.inl hwide
      · obtain rfl := List.mem_singleton.mp hc
        exact Or.inr hwide

namespace Generate

open Gen

variable {warnings : List Diagnostic} {met : List UserCode}

theorem records_literal (cx : Context) (region : Option Region) (value : String)
    (ignoreCase : Bool) :
    Records (Expr.warnings cx.region (.literal region value ignoreCase)) []
      (Generate.literal cx region value ignoreCase) := by
  unfold Generate.literal
  rw [Bytes.not_all_isNarrow_eq]
  refine (records_warnIf _ _ _ _ _).bind fun _ => (records_warnIf _ _ _ _ _).before fun _ => ?_
  refine .after (fun _ => .after (fun _ => ?_) (records_expected _ _)) (Gen.records_literal _)
  exact (blind_newResult.bind fun _ => blind_pure _).records

theorem records_charClass (cx : Context) (region : Option Region) (cls : CharClass) :
    Records (Expr.warnings cx.region (.charClass region cls)) []
      (Generate.charClass cx region cls) := by
  unfold Generate.charClass
  rw [CharClass.isWide_eq]
  refine (records_warnIf _ _ _ _ _).bind fun _ => (records_warnIf _ _ _ _ _).before fun _ => ?_
  refine .after (fun _ => .after (fun _ => ?_) (records_expected _ _)) (Gen.records_charClass _ _)
  exact (blind_newResult.bind fun _ => blind_pure _).records

theorem records_predicate (negated : Bool) (code : UserCode) (env : Env) :
    Records [] [code] (Generate.predicate negated code env) := by
  refine (Gen.records_predicate code env).before fun call => ?_
  exact (blind_newResult.bind fun _ => blind_replaceResult.bind fun _ => blind_pure _).records

theorem records_named {inner : Gen (Code × Env)} (name : String)
    (h : Records warnings met inner) : Records warnings met (Generate.named name inner) := by
  refine .after (fun _ => h.before ?_) (records_expected _ _)
  rintro ⟨code, env⟩
  exact (blind_topResult.bind fun _ => blind_replaceResult.bind fun _ => blind_pure _).records

theorem records_text {inner : Gen Code} (h : Records warnings met inner) :
    Records warnings met (Generate.text inner) := by
  refine .after (fun start => h.before fun code => ?_) blind_newPosition.records
  exact ((blind_releasePosition start).bind fun _ => blind_topResult.bind fun _ =>
    blind_replaceResult.bind fun _ => blind_pure _).records

theorem records_action (code : UserCode) {inner : Gen (Code × Env)}
    (h : Records warnings met inner) :
    Records warnings (met ++ [code]) (Generate.action code inner) := by
  refine .after (fun start => ?_) blind_newPosition.records
  have hcalled : ∀ out : Code × Env, Records [] [code] (do
      let call ← Gen.action code out.2
      let slot ← topResult
      releasePosition start
      return Code.all [.instr (.save start), out.1, .branch (.matched slot) [.act call] []]) := by
    intro out
    refine (Gen.records_action code out.2).before fun call => ?_
    exact (blind_topResult.bind fun _ => (blind_releasePosition start).bind fun _ =>
      blind_pure _).records
  have hboth := h.bind hcalled
  rwa [List.append_nil] at hboth

theorem records_optional {inner : Gen Code} (h : Records warnings met inner) :
    Records warnings met (Generate.optional inner) := by
  refine h.before fun code => ?_
  exact (blind_topResult.bind fun _ => blind_replaceResult.bind fun _ => blind_pure _).records

theorem records_lookahead (negated : Bool) {inner : Gen Code} (h : Records warnings met inner) :
    Records warnings met (Generate.lookahead negated inner) := by
  refine .after (fun start => h.before fun code => ?_) blind_newPosition.records
  refine ((blind_releasePosition start).bind fun _ => blind_topResult.bind fun _ =>
    blind_replaceResult.bind fun _ => ?_).records
  cases negated with
  | false => exact blind_pure _
  | true => exact blind_replaceResult.bind fun _ => blind_pure _

theorem records_repeated (quantifier : Quantifier) {inner : Gen Code}
    (h : Records warnings met inner) :
    Records warnings met (Generate.repeated quantifier inner) := by
  unfold Generate.repeated
  by_cases hq : 0 < quantifier.least
  · simp only [if_pos hq, bind_map_left]
    refine .after (fun start => .after (fun _ => .after (fun array => h.before fun code => ?_)
      blind_topResult.records) blind_newResult.records) blind_newPosition.records
    have henough : Blind (enough quantifier.least array start) :=
      (blind_releasePosition start).bind fun _ => blind_replaceResult.bind fun _ => blind_pure _
    exact (blind_popResult.bind fun _ => henough.bind fun _ => blind_pure _).records
  · simp only [if_neg hq, pure_bind]
    refine .after (fun _ => .after (fun array => h.before fun code => ?_)
      blind_topResult.records) blind_newResult.records
    exact (blind_popResult.bind fun _ => blind_pure _).records

theorem records_element (number slot start : Nat) {inner : Gen (Code × Env)}
    (h : Records warnings met inner) :
    Records warnings met (Generate.element number slot start inner) := by
  refine h.before ?_
  rintro ⟨code, env⟩
  exact (blind_topResult.bind fun _ => (blind_resultsFrom slot).bind fun _ => blind_pure _).records

/-- The action that is left to a sequence is met after its elements. -/
theorem records_sequence (scope : Scope) (count : Nat) {elements : Nat → Gen (Code × Env)}
    (h : ∀ start, Records warnings met (elements start)) :
    Records warnings (met ++ scope.action.toList) (Generate.sequence scope count elements) := by
  refine .after (fun start => ?_) blind_newPosition.records
  rw [← List.append_nil warnings]
  refine (h start).bind ?_
  rintro ⟨code, env⟩
  refine .after (fun values => .after (fun _ => ?_) (blind_releasePosition start).records)
    (blind_popResults count).records
  cases scope.action with
  | none => exact ((blind_pure _).bind fun _ => blind_newResult.bind fun _ => blind_pure _).records
  | some code =>
    refine ((Gen.records_action code env).map _).before fun call => ?_
    exact (blind_newResult.bind fun _ => blind_pure _).records

theorem records_alternative (number : Nat) {inner : Gen Code} (h : Records warnings met inner) :
    Records warnings met (Generate.alternative number inner) :=
  h.before fun _ => (blind_popResult.bind fun _ => blind_pure _).records

end Generate

namespace Expr

open Gen

/-- The warnings about all nodes of an expression. -/
def allWarnings (rule : Option Region) (e : Expr) : List Diagnostic :=
  e.nodes.flatMap (warnings rule)

/-- The user code of all nodes of an expression. -/
def userCode (e : Expr) : List UserCode := e.nodes.filterMap userCode?

/-- Generation records what the nodes have. A sequence that has an action to call meets it last. -/
def Recorded (cx : Context) (e : Expr) : Prop :=
  ∀ scope : Scope, scope.action = none ∨ e.isSequence = true →
    Records (e.allWarnings cx.region) (e.userCode ++ scope.action.toList) (e.generate cx scope)

variable {cx : Context}

theorem Recorded.plain {e : Expr} (h : e.Recorded cx) (scope : Scope)
    (hs : scope.action = none) :
    Records (e.allWarnings cx.region) e.userCode (e.generate cx scope) := by
  have hrecords := h scope (Or.inl hs)
  rwa [hs, Option.toList_none, List.append_nil] at hrecords

theorem recorded_of_plain {e : Expr} (hseq : e.isSequence = false)
    (h : ∀ scope : Scope, scope.action = none →
      Records (e.allWarnings cx.region) e.userCode (e.generate cx scope)) : e.Recorded cx := by
  intro scope hs
  rw [hseq] at hs
  have hnone : scope.action = none := hs.resolve_right nofun
  rw [hnone, Option.toList_none, List.append_nil]
  exact h scope hnone

/-- A node that has no warnings and no user code itself. -/
theorem recorded_around {e : Expr} {inside : List Expr} (hseq : e.isSequence = false)
    (hnodes : e.nodes = inside ++ [e]) (hwarnings : e.warnings cx.region = [])
    (hcode : e.userCode? = none)
    (h : ∀ scope : Scope, scope.action = none →
      Records (inside.flatMap (warnings cx.region)) (inside.filterMap userCode?)
        (e.generate cx scope)) : e.Recorded cx := by
  refine recorded_of_plain hseq fun scope hs => ?_
  have hall : e.allWarnings cx.region = inside.flatMap (warnings cx.region) := by
    rw [allWarnings, hnodes, List.flatMap_append, List.flatMap_singleton, hwarnings,
      List.append_nil]
  have hmet : e.userCode = inside.filterMap userCode? := by
    rw [userCode, hnodes, List.filterMap_append, List.filterMap_cons_none hcode,
      List.filterMap_nil, List.append_nil]
  rw [hall, hmet]
  exact h scope hs

theorem records_elements {elements : List Expr} (h : ∀ e ∈ elements, e.Recorded cx)
    (slot start done : Nat) (env : Env) :
    Records ((nodesAll elements).flatMap (warnings cx.region))
      ((nodesAll elements).filterMap userCode?)
      (generateElements cx slot start done env elements) := by
  induction elements generalizing done env with
  | nil => exact (blind_pure _).records
  | cons first rest ih =>
    obtain ⟨hfirst, hrest⟩ := List.forall_mem_cons.mp h
    rw [nodesAll, List.flatMap_append, List.filterMap_append]
    refine (Generate.records_element _ slot start (hfirst.plain _ rfl)).bind ?_
    rintro ⟨code, env'⟩
    refine (ih hrest (done + 1) env').before ?_
    rintro ⟨more, env''⟩
    exact (blind_pure _).records

theorem records_alternatives {alternatives : List Expr} (h : ∀ e ∈ alternatives, e.Recorded cx)
    (scope : Scope) (number : Nat) :
    Records ((nodesAll alternatives).flatMap (warnings cx.region))
      ((nodesAll alternatives).filterMap userCode?)
      (generateAlternatives cx scope number alternatives) := by
  induction alternatives generalizing number with
  | nil => exact (blind_pure _).records
  | cons first rest ih =>
    obtain ⟨hfirst, hrest⟩ := List.forall_mem_cons.mp h
    rw [nodesAll, List.flatMap_append, List.filterMap_append]
    cases rest with
    | nil =>
      rw [nodesAll, List.flatMap_nil, List.filterMap_nil]
      refine (hfirst.plain (scope.branch scope.slot) rfl).bind ?_
      rintro ⟨code, env⟩
      exact (blind_pure _).records
    | cons second rest =>
      refine (Generate.records_alternative number ((hfirst.plain _ rfl).map _)).bind fun code => ?_
      exact (ih hrest (number + 1)).before fun more => (blind_pure _).records

theorem recorded (cx : Context) (e : Expr) : e.Recorded cx := by
  induction e using Expr.induction with
  | named region name inner ih =>
    refine recorded_around rfl rfl rfl rfl fun scope hs => records_inStep scope ?_
    exact Generate.records_named name (ih.plain scope hs)
  | choice region alternatives ih =>
    refine recorded_around rfl rfl rfl rfl fun scope _ => ?_
    cases alternatives with
    | nil => exact records_inStep scope (blind_newResult.bind fun _ => blind_pure _).records
    | cons first rest =>
      refine records_inStep scope ((records_alternatives ih scope 1).before fun code => ?_)
      exact (blind_pure _).records
  | sequence region elements ih =>
    intro scope _
    have hmet : (sequence region elements).userCode = (nodesAll elements).filterMap userCode? := by
      rw [userCode, nodes, List.filterMap_append]
      exact List.append_nil _
    have hall : (sequence region elements).allWarnings cx.region =
        (nodesAll elements).flatMap (warnings cx.region) := by
      rw [allWarnings, nodes, List.flatMap_append]
      exact List.append_nil _
    rw [hmet, hall]
    exact records_inStep scope (Generate.records_sequence scope _ fun start =>
      records_elements ih scope.slot start 0 scope.env)
  | labeled region label inner ih =>
    refine recorded_around rfl rfl rfl rfl fun scope _ => records_inStep scope ?_
    refine (ih.plain _ rfl).before ?_
    rintro ⟨code, env⟩
    exact (blind_pure _).records
  | text region inner ih =>
    refine recorded_around rfl rfl rfl rfl fun scope _ => records_inStep scope ?_
    exact (Generate.records_text ((ih.plain _ rfl).map _)).before fun _ => (blind_pure _).records
  | optional region inner ih =>
    refine recorded_around rfl rfl rfl rfl fun scope _ => records_inStep scope ?_
    exact (Generate.records_optional ((ih.plain _ rfl).map _)).before fun _ =>
      (blind_pure _).records
  | repeated region quantifier inner ih =>
    refine recorded_around rfl rfl rfl rfl fun scope _ => records_inStep scope ?_
    exact (Generate.records_repeated quantifier ((ih.plain _ rfl).map _)).before fun _ =>
      (blind_pure _).records
  | lookahead region negated inner ih =>
    refine recorded_around rfl rfl rfl rfl fun scope _ => records_inStep scope ?_
    exact (Generate.records_lookahead negated ((ih.plain _ rfl).map _)).before fun _ =>
      (blind_pure _).records
  | predicate region negated code =>
    refine recorded_of_plain rfl fun scope _ => records_inStep scope ?_
    exact (Generate.records_predicate negated code scope.env).before fun _ =>
      (blind_pure _).records
  | action region code inner ih =>
    refine recorded_of_plain rfl fun scope _ => ?_
    have hmet : (action region code inner).userCode = inner.userCode ++ [code] := by
      rw [userCode, nodes, List.filterMap_append]
      rfl
    have hall : (action region code inner).allWarnings cx.region =
        inner.allWarnings cx.region := by
      rw [allWarnings, nodes, List.flatMap_append]
      exact List.append_nil _
    rw [hmet, hall]
    apply records_inStep
    by_cases hseq : inner.isSequence = true
    · simp only [if_pos hseq]
      exact ((ih (scope.withAction code) (Or.inr hseq)).map _).before fun _ =>
        (blind_pure _).records
    · simp only [if_neg hseq]
      exact (Generate.records_action code (ih.plain _ rfl)).before fun _ => (blind_pure _).records
  | ruleRef region name =>
    refine recorded_of_plain rfl fun scope _ => records_inStep scope ?_
    exact (blind_newResult.bind fun _ => blind_pure _).records
  | literal region value ignoreCase =>
    refine recorded_of_plain rfl fun scope _ => records_inStep scope ?_
    have hall : (literal region value ignoreCase).allWarnings cx.region =
        (literal region value ignoreCase).warnings cx.region := List.append_nil _
    rw [hall]
    exact (Generate.records_literal cx region value ignoreCase).before fun _ =>
      (blind_pure _).records
  | charClass region cls =>
    refine recorded_of_plain rfl fun scope _ => records_inStep scope ?_
    have hall : (charClass region cls).allWarnings cx.region =
        (charClass region cls).warnings cx.region := List.append_nil _
    rw [hall]
    exact (Generate.records_charClass cx region cls).before fun _ => (blind_pure _).records
  | any region =>
    refine recorded_of_plain rfl fun scope _ => records_inStep scope ?_
    exact (blind_newResult.bind fun _ => blind_pure _).records

end Expr

namespace Session

theorem records_compileRule {policy : Policy} {session after : Session} {rule : Rule}
    {function : RuleFunction} (h : session.compileRule policy rule = (.ok function, after)) :
    session.Records (rule.expression.allWarnings rule.region) rule.expression.userCode after := by
  have hgenerate : Gen.Records (rule.expression.allWarnings rule.region)
      rule.expression.userCode (rule.generate policy) := by
    refine ((rule.expression.recorded ⟨policy, rule.region⟩).plain Scope.root rfl).before ?_
    rintro ⟨body, env⟩
    refine (Gen.blind_popResult.bind fun result => ?_).records
    refine (Gen.blind_assertLive (fun _ _ => rfl) 0).bind fun _ => ?_
    refine (Gen.blind_assertLive (fun _ _ => rfl) 0).bind fun _ => ?_
    exact Gen.blind_get (fun _ _ => rfl) fun _ => Gen.blind_pure _
  unfold compileRule EStateM.run at h
  cases hrun : rule.generate policy { toSession := session } with
  | ok function' w =>
    rw [hrun] at h
    cases h
    exact hgenerate _ _ _ hrun
  | error error w =>
    rw [hrun] at h
    cases h

/-- Compiled rules record what their nodes have, in the order of the rules. -/
theorem records_compileRules {policy : Policy} {session after : Session} {rules : List Rule}
    {functions : List RuleFunction}
    (h : session.compileRules policy rules = (.ok functions, after)) :
    session.Records (rules.flatMap fun rule => rule.expression.allWarnings rule.region)
      (rules.flatMap fun rule => rule.expression.userCode) after := by
  induction rules generalizing session functions with
  | nil =>
    cases h
    exact .refl _
  | cons rule rest ih =>
    rcases hrule : session.compileRule policy rule with ⟨error | function, between⟩
    · rw [compileRules_cons_error hrule] at h
      cases h
    · rw [compileRules_cons_ok hrule] at h
      rcases hrest : between.compileRules policy rest with ⟨error | others, final⟩
      · rw [hrest] at h
        cases h
      · rw [hrest] at h
        cases h
        rw [List.flatMap_cons, List.flatMap_cons]
        exact (records_compileRule hrule).trans (ih hrest)

end Session

end Backtrack
