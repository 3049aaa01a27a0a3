import Backtrack.Proofs.Loading.Likeness

/-!
# What is accepted

A plain value is loaded exactly when it stands for a grammar, and then as that grammar. The loader
sorts the members of objects first and keeps the last of equal keys, which changes nothing of what
a value stands for.
-/

namespace Backtrack

set_option autoImplicit false

open Json (Value member?)

namespace Format

theorem tracks_canonical : Tracks (fun v w => w = v ∨ w = v.canonical) fun _ _ => True := by
  refine ⟨fun v => Or.inl rfl, ?_⟩
  rintro v w (rfl | rfl)
  · exact .same _
  · cases v with
    | flaw cause => cases cause
    | array items =>
      rw [Json.canonical, Json.canonicalItems_eq_map]
      refine .array (List.forall₂_map_right_iff.mpr ?_)
      exact List.forall₂_same.mpr fun item _ => Or.inr rfl
    | object members =>
      refine .object fun name _ => ?_
      rw [Json.member?_canonicalMembers]
      cases member? name members with
      | none => exact .none
      | some x => exact .some (Or.inr rfl)
    | _ => exact .same _

theorem isGrammar_canonical_iff {v : Value} {g : Grammar} :
    IsGrammar v.canonical g ↔ IsGrammar v g :=
  (tracks_canonical.isGrammar_congr (fun _ _ _ _ _ _ => trivial) (Or.inr rfl) g).symm

theorem ofValue_eq_ok_iff {v : Value} {g : Grammar} :
    Grammar.ofValue v = .ok g ↔ IsGrammar v g := by
  have honce : Unrepeated v.canonical := by
    apply throughout_of_everywhere
    exact (Json.everywhere_canonical v).mono (fun _ _ => trivial) fun _ h name _ => h name
  unfold Grammar.ofValue
  rw [plainGrammar_eq_ok_iff honce, isGrammar_canonical_iff]

end Format

/-- The loader takes the values that stand for a grammar, as that grammar, and refuses all
others. -/
theorem loads_exactly_the_format (v : Value) :
    (∀ g, Grammar.ofValue v = .ok g ↔ Format.IsGrammar v g) ∧
    ((∃ error, Grammar.ofValue v = .error error) ↔ ∀ g, ¬ Format.IsGrammar v g) := by
  refine ⟨fun g => Format.ofValue_eq_ok_iff, ?_⟩
  simp only [← Format.ofValue_eq_ok_iff]
  cases Grammar.ofValue v with
  | ok g => simp
  | error error => simp

end Backtrack
