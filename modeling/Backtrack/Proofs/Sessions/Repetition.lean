import Backtrack.Proofs.Generation.Growth

/-!
# Sessions go on from what they were

Initializers and rules come to a session in any order, and some rules fail. Its tables only go on,
so a rule that comes again finds every entry where it was. It ends as before, adds nothing and
raises the same warnings.
-/

namespace Backtrack

set_option autoImplicit false

namespace Gen

variable {α β : Type}

theorem Growing.endSession_continues {x : Gen α} (h : Growing x) (w : Workspace) :
    w.toSession.Continues (endSession (x w)) := by
  have hw := h w
  cases hx : x w with
  | ok a w' =>
    rw [hx] at hw
    exact hw.continues
  | error error w' =>
    rw [hx] at hw
    exact hw.continues

/-- A run that comes again, in a session that goes on from where it ended, ends the same way. Only
the warnings are raised anew. -/
structure Repeats (x : Gen α) : Prop where
  grows : Growing x
  again : ∀ w, ∃ raised, (endSession (x w)).diagnostics = w.diagnostics ++ raised ∧
    ∀ later, (endSession (x w)).Continues later → x { w with toSession := later } =
      withSession { later with diagnostics := later.diagnostics ++ raised } (x w)

theorem Plain.repeats {x : Gen α} (h : Plain x) : Repeats x where
  grows := h.growing
  again w := by
    refine ⟨[], ?_, ?_⟩
    · rw [List.append_nil]
      have hw := h.ends w
      cases hx : x w with
      | ok a w' =>
        rw [hx] at hw
        exact hw.diagnostics_eq
      | error error w' =>
        rw [hx] at hw
        exact congrArg Session.diagnostics hw.2
    · intro later hlater
      rw [List.append_nil]
      exact h.again w later hlater

theorem repeats_warnIf (condition : Bool) (cx : Context) (kind : DiagnosticKind)
    (region : Option Region) (value : String) :
    Repeats (warnIf condition cx kind region value) := by
  refine ⟨growing_warnIf condition cx kind region value, ?_⟩
  cases condition with
  | false => exact (blind_pure _).plain.repeats.again
  | true =>
    intro w
    have hwarn : warnIf true cx kind region value = warn cx kind region value := if_pos rfl
    rw [hwarn]
    unfold warn
    cases cx.policy with
    | strict =>
      refine ⟨[], (List.append_nil _).symm, ?_⟩
      intro later _
      rw [List.append_nil]
      rfl
    | collecting => exact ⟨[_], rfl, fun later _ => rfl⟩

theorem Repeats.bind {x : Gen α} {f : α → Gen β} (hx : Repeats x) (hf : ∀ a, Repeats (f a)) :
    Repeats (x >>= f) := by
  refine ⟨hx.grows.bind fun a => (hf a).grows, ?_⟩
  intro w
  change ∃ raised, (endSession (EStateM.bind x f w)).diagnostics = w.diagnostics ++ raised ∧
    ∀ later, (endSession (EStateM.bind x f w)).Continues later →
      EStateM.bind x f { w with toSession := later } =
        withSession { later with diagnostics := later.diagnostics ++ raised } (EStateM.bind x f w)
  unfold EStateM.bind
  obtain ⟨raised, hraised, hagain⟩ := hx.again w
  cases hrun : x w with
  | error error w' =>
    rw [hrun] at hraised hagain
    refine ⟨raised, hraised, ?_⟩
    intro later hlater
    rw [hagain later hlater]
    rfl
  | ok a w' =>
    rw [hrun] at hraised hagain
    obtain ⟨more, hmore, hnext⟩ := (hf a).again w'
    refine ⟨raised ++ more, ?_, ?_⟩
    · change (endSession (f a w')).diagnostics = _
      rw [hmore, ← List.append_assoc, ← hraised]
      rfl
    · intro later hlater
      -- The session of the rest goes on from the one in between, so the first part repeats too.
      have hbetween : w'.toSession.Continues later :=
        ((hf a).grows.endSession_continues w').trans hlater
      rw [hagain later hbetween, ← List.append_assoc]
      exact hnext { later with diagnostics := later.diagnostics ++ raised } { hlater with }

theorem respects_repeats (cx : Context) : Respects (fun _ x _ => Repeats x) cx cx where
  plain h := h.repeats
  warnIf condition := repeats_warnIf condition cx
  bind hx hf := hx.bind hf

end Gen

namespace Session

variable {policy : Policy}

theorem endSession_generate (policy : Policy) (session : Session) (rule : Rule) :
    Gen.endSession (rule.generate policy { toSession := session }) =
      (session.compileRule policy rule).2 := by
  unfold compileRule EStateM.run
  cases rule.generate policy { toSession := session } <;> rfl

theorem compileRule_of_withSession {session later after : Session} {rule : Rule}
    (h : rule.generate policy { toSession := later } =
      Gen.withSession after (rule.generate policy { toSession := session })) :
    later.compileRule policy rule = ((session.compileRule policy rule).1, after) := by
  unfold compileRule EStateM.run
  rw [h]
  cases rule.generate policy { toSession := session } <;> rfl

/-- A rule that is compiled again later ends as it did before, and leaves the tables alone. -/
theorem compileRule_again (policy : Policy) (session : Session) (rule : Rule) :
    ∃ raised, (session.compileRule policy rule).2.diagnostics = session.diagnostics ++ raised ∧
      ∀ later, (session.compileRule policy rule).2.Continues later →
        later.compileRule policy rule = ((session.compileRule policy rule).1,
          { later with diagnostics := later.diagnostics ++ raised }) := by
  have h : Gen.Repeats (rule.generate policy) :=
    (Gen.respects_repeats ⟨policy, rule.region⟩).generate_rule
  obtain ⟨raised, hraised, hagain⟩ := h.again { toSession := session }
  rw [endSession_generate] at hraised hagain
  refine ⟨raised, hraised, ?_⟩
  intro later hlater
  exact compileRule_of_withSession (hagain later hlater)

/-- What a session is asked for. -/
inductive Request where
  | initializer (space code : String)
  | rule (rule : Rule)

def serve (policy : Policy) (session : Session) : Request → Session
  | .initializer space code => session.addInitializer space code
  | .rule rule => (session.compileRule policy rule).2

/-- Requests are served in order. One that fails does not stop those after it. -/
def serveAll (policy : Policy) (session : Session) (requests : List Request) : Session :=
  requests.foldl (serve policy) session

theorem continues_addInitializer (session : Session) (space code : String) :
    session.Continues (session.addInitializer space code) :=
  { Continues.refl session with spaces := OrderedMap.keys_isPrefix_insert _ _ _ }

theorem continues_serve (session : Session) (request : Request) :
    session.Continues (session.serve policy request) := by
  cases request with
  | initializer space code => exact session.continues_addInitializer space code
  | rule rule => exact (session.compileRule_grows policy rule).continues

theorem continues_serveAll (session : Session) (requests : List Request) :
    session.Continues (session.serveAll policy requests) := by
  induction requests generalizing session with
  | nil => exact .refl session
  | cons first rest ih => exact (session.continues_serve first).trans (ih _)

/-- No table has an entry twice, and no namespace comes twice. -/
structure Distinct (session : Session) : Prop where
  literals : session.literals.Nodup
  classes : session.classes.Nodup
  descriptions : session.descriptions.Nodup
  predicates : session.predicates.Nodup
  actions : session.actions.Nodup
  spaces : session.user.spaces.keys.Nodup

theorem Step.distinct {a b : Session} (h : a.Step b) (ha : a.Distinct) : b.Distinct := by
  cases h with
  | warns diagnostic => exact { ha with }
  | adds h =>
    cases h with
    | nothing => exact ha
    | literal bytes => exact { ha with literals := Interner.nodup_add ha.literals _ }
    | charClass singles ranges => exact { ha with classes := Interner.nodup_add ha.classes _ }
    | expected kind description =>
      exact { ha with descriptions := Interner.nodup_add ha.descriptions _ }
    | predicate code params =>
      exact { ha with
        predicates := Interner.nodup_add ha.predicates _
        spaces := OrderedMap.nodup_keys_insertIfNew ha.spaces _ _ }
    | action code params =>
      exact { ha with
        actions := Interner.nodup_add ha.actions _
        spaces := OrderedMap.nodup_keys_insertIfNew ha.spaces _ _ }

theorem Distinct.serve {session : Session} (h : session.Distinct) (request : Request) :
    (session.serve policy request).Distinct := by
  cases request with
  | initializer space code =>
    exact { h with spaces := OrderedMap.nodup_keys_insert h.spaces _ _ }
  | rule rule => exact (session.compileRule_grows policy rule).invariant (fun _ _ => Step.distinct) h

theorem Distinct.serveAll {session : Session} (h : session.Distinct) (requests : List Request) :
    (session.serveAll policy requests).Distinct := by
  induction requests generalizing session with
  | nil => exact h
  | cons first rest ih => exact ih (h.serve first)

theorem Headed.serve {session : Session} (h : session.Headed) (request : Request) :
    (session.serve policy request).Headed := by
  cases request with
  | initializer space code => exact ⟨h.literals, h.classes, h.expected, h.predicates, h.actions⟩
  | rule rule => exact (session.compileRule_grows policy rule).invariant (fun _ _ => Step.headed) h

theorem Headed.serveAll {session : Session} (h : session.Headed) (requests : List Request) :
    (session.serveAll policy requests).Headed := by
  induction requests generalizing session with
  | nil => exact h
  | cons first rest ih => exact ih (h.serve first)

end Session

/-- Whatever a session has served, its next request only adds at the ends of its tables, and no
entry is there twice. A rule that it has compiled, or has failed to, comes out the same at any
later time, with the same warnings, and changes nothing else. -/
theorem sessions_append_and_repeat (policy : Policy) :
    (∀ history request, (Session.serveAll policy {} history).Distinct ∧
      (Session.serveAll policy {} history).Continues
        ((Session.serveAll policy {} history).serve policy request)) ∧
    ∀ front rule back, ∃ result after raised,
      (Session.serveAll policy {} front).compileRule policy rule = (result, after) ∧
      after.diagnostics = (Session.serveAll policy {} front).diagnostics ++ raised ∧
      (after.serveAll policy back).compileRule policy rule = (result,
        { after.serveAll policy back with
          diagnostics := (after.serveAll policy back).diagnostics ++ raised }) := by
  constructor
  · intro history request
    have hempty : ({} : Session).Distinct :=
      ⟨List.nodup_nil, List.nodup_nil, List.nodup_nil, List.nodup_nil, List.nodup_nil,
        List.nodup_nil⟩
    exact ⟨hempty.serveAll history, Session.continues_serve _ request⟩
  · intro front rule back
    obtain ⟨raised, hraised, hagain⟩ :=
      (Session.serveAll policy {} front).compileRule_again policy rule
    exact ⟨_, _, raised, rfl, hraised, hagain _ (Session.continues_serveAll _ back)⟩

end Backtrack
