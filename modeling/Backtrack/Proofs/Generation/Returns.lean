import Backtrack.Generate.Rule

/-!
# What a step returns

Where a step of generation succeeds, all steps that it is made of have succeeded. So what it returns
can be told from them, whatever the workspace is.
-/

namespace Backtrack

set_option autoImplicit false

namespace Gen

variable {α β : Type} {post : α → Prop}

theorem eq_ok_of_bind {x : Gen α} {f : α → Gen β} {w w'' : Workspace} {b : β}
    (h : (x >>= f) w = .ok b w'') : ∃ a w', x w = .ok a w' ∧ f a w' = .ok b w'' := by
  change EStateM.bind x f w = .ok b w'' at h
  unfold EStateM.bind at h
  cases hx : x w with
  | ok a w' =>
    rw [hx] at h
    exact ⟨a, w', rfl, h⟩
  | error error w' =>
    rw [hx] at h
    cases h

/-- What the step returns has the property. -/
def Returns (x : Gen α) (post : α → Prop) : Prop := ∀ w a w', x w = .ok a w' → post a

theorem returns_pure {a : α} (h : post a) : Returns (pure a) post := by
  intro w a' w' he
  cases he
  exact h

theorem Returns.bind {x : Gen β} {f : β → Gen α} {between : β → Prop} (hx : Returns x between)
    (hf : ∀ b, between b → Returns (f b) post) : Returns (x >>= f) post := by
  intro w a w'' h
  obtain ⟨b, w', hstep, hrest⟩ := eq_ok_of_bind h
  exact hf b (hx w b w' hstep) w' a w'' hrest

/-- Where only the last step decides what is returned. -/
theorem returns_bind {x : Gen β} {f : β → Gen α} (hf : ∀ b, Returns (f b) post) :
    Returns (x >>= f) post :=
  Returns.bind (fun _ _ _ _ => True.intro) fun b _ => hf b

theorem returns_inStep (scope : Scope) {x : Gen α} (hx : Returns x post) :
    Returns (inStep scope x) post :=
  returns_bind fun _ => hx.bind fun _ hout => returns_bind fun _ => returns_pure hout

end Gen

/-- The function of a rule has the name of the rule. -/
theorem Rule.returns_name (policy : Policy) (rule : Rule) :
    Gen.Returns (rule.generate policy) fun function => function.name = rule.name :=
  Gen.returns_bind fun _ => Gen.returns_bind fun _ => Gen.returns_bind fun _ =>
    Gen.returns_bind fun _ => Gen.returns_bind fun _ => Gen.returns_pure rfl

end Backtrack
