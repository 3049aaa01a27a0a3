import Backtrack.Grammar.Record
import Backtrack.Proofs.Loading.Format

/-!
# Records as they are read

A record is read through its fields. Where a name is there at most once, reading its field comes
down to decoding what the record holds under it.
-/

namespace Backtrack

set_option autoImplicit false

namespace Reading

variable {α β : Type}

theorem map_eq_done_iff {f : α → β} {x : Reading α} {b : β} :
    f <$> x = .done b ↔ ∃ a, x = .done a ∧ f a = b := by
  change apply (.done f) x = .done b ↔ _
  rw [apply_eq_done_iff]
  constructor
  · rintro ⟨g, a, hg, hx, hb⟩
    cases hg
    exact ⟨a, hx, hb⟩
  · rintro ⟨a, hx, hb⟩
    exact ⟨f, a, rfl, hx, hb⟩

theorem seq_eq_done_iff {f : Reading (α → β)} {x : Reading α} {b : β} :
    f <*> x = .done b ↔ ∃ g a, f = .done g ∧ x = .done a ∧ g a = b :=
  apply_eq_done_iff

variable {γ δ ζ : Type}

theorem map₂_eq_done_iff {f : α → β → γ} {x : Reading α} {y : Reading β} {c : γ} :
    f <$> x <*> y = .done c ↔ ∃ a b, x = .done a ∧ y = .done b ∧ f a b = c := by
  rw [seq_eq_done_iff]
  constructor
  · rintro ⟨g, b, hg, hy, rfl⟩
    obtain ⟨a, hx, rfl⟩ := map_eq_done_iff.mp hg
    exact ⟨a, b, hx, hy, rfl⟩
  · rintro ⟨a, b, hx, hy, rfl⟩
    exact ⟨f a, b, map_eq_done_iff.mpr ⟨a, hx, rfl⟩, hy, rfl⟩

theorem map₃_eq_done_iff {f : α → β → γ → δ} {x : Reading α} {y : Reading β} {z : Reading γ}
    {d : δ} :
    f <$> x <*> y <*> z = .done d ↔
      ∃ a b c, x = .done a ∧ y = .done b ∧ z = .done c ∧ f a b c = d := by
  rw [seq_eq_done_iff]
  constructor
  · rintro ⟨g, c, hg, hz, rfl⟩
    obtain ⟨a, b, hx, hy, rfl⟩ := map₂_eq_done_iff.mp hg
    exact ⟨a, b, c, hx, hy, hz, rfl⟩
  · rintro ⟨a, b, c, hx, hy, hz, rfl⟩
    exact ⟨f a b, c, map₂_eq_done_iff.mpr ⟨a, b, hx, hy, rfl⟩, hz, rfl⟩

theorem map₄_eq_done_iff {f : α → β → γ → δ → ζ} {x : Reading α} {y : Reading β}
    {z : Reading γ} {w : Reading δ} {e : ζ} :
    f <$> x <*> y <*> z <*> w = .done e ↔
      ∃ a b c d, x = .done a ∧ y = .done b ∧ z = .done c ∧ w = .done d ∧ f a b c d = e := by
  rw [seq_eq_done_iff]
  constructor
  · rintro ⟨g, d, hg, hw, rfl⟩
    obtain ⟨a, b, c, hx, hy, hz, rfl⟩ := map₃_eq_done_iff.mp hg
    exact ⟨a, b, c, d, hx, hy, hz, hw, rfl⟩
  · rintro ⟨a, b, c, d, hx, hy, hz, hw, rfl⟩
    exact ⟨f a b c, d, map₃_eq_done_iff.mpr ⟨a, b, c, hx, hy, hz, rfl⟩, hw, rfl⟩

theorem seqLeft_eq_done_iff {x : Reading α} {y : Reading β} {a : α} :
    x <* y = .done a ↔ x = .done a ∧ ∃ b, y = .done b := by
  change Function.const β <$> x <*> y = .done a ↔ _
  rw [seq_eq_done_iff]
  constructor
  · rintro ⟨g, b, hg, hy, rfl⟩
    obtain ⟨a, hx, rfl⟩ := map_eq_done_iff.mp hg
    exact ⟨hx, b, hy⟩
  · rintro ⟨hx, b, hy⟩
    exact ⟨Function.const β a, b, map_eq_done_iff.mpr ⟨a, hx, rfl⟩, hy, rfl⟩

theorem toExcept_eq_ok_iff {x : Reading α} {a : α} : x.toExcept = .ok a ↔ x = .done a := by
  cases x <;> simp [toExcept]

theorem ofExcept_eq_done_iff {place : Nat} {x : Except LoadError α} {a : α} :
    ofExcept place x = .done a ↔ x = .ok a := by
  cases x <;> simp [ofExcept]

end Reading

namespace Record

variable {α β : Type}

/-- Under this name the record gives this and nothing else. -/
def Finds (name : String) (found : Option α) : Record α → Prop
  | .named members => Json.valuesOf name members = found.toList
  | .listed fields items => items[fields.idxOf name]? = found

theorem occurrences_map_fst (name : String) (members : List (String × α)) :
    (occurrences name members).map Prod.fst = Json.valuesOf name members := by
  have hplaces : members = members.zipIdx.map Prod.fst := List.zipIdx_map_fst 0 members |>.symm
  unfold Json.valuesOf
  conv_rhs => rw [hplaces, List.filterMap_map]
  unfold occurrences
  rw [List.map_filterMap]
  congr 1
  funext member
  by_cases h : member.1.1 = name
  · simp [h]
  · simp [h]

theorem Finds.optional {r : Record α} {name : String} {found : Option α} (h : r.Finds name found)
    {decode : α → Except LoadError β} {b : Option β} :
    r.optional name decode = .done b ↔
      (found = none ∧ b = none) ∨ ∃ x a, found = some x ∧ decode x = .ok a ∧ b = some a := by
  -- Either way there is at most one value, and it is decoded at its place.
  have hvalue : ∀ (x : α) (place : Nat),
      some <$> Reading.ofExcept place (decode x) = .done b ↔
        ∃ a, decode x = .ok a ∧ b = some a := by
    intro x place
    simp only [Reading.map_eq_done_iff, Reading.ofExcept_eq_done_iff, @eq_comm _ b]
  cases r with
  | named members =>
    have hfound : (occurrences name members).map Prod.fst = found.toList :=
      (occurrences_map_fst name members).trans h
    cases found with
    | none =>
      rw [Record.optional, List.map_eq_nil_iff.mp hfound]
      simp [eq_comm]
    | some x =>
      obtain ⟨⟨value, place⟩, rest, hoccurrences, rfl, hrest⟩ := List.map_eq_cons_iff.mp hfound
      rw [Record.optional, hoccurrences, List.map_eq_nil_iff.mp hrest]
      simp only [hvalue]
      simp
  | listed fields items =>
    have hfound : items[fields.idxOf name]? = found := h
    rw [Record.optional, hfound]
    cases found with
    | none => simp [eq_comm]
    | some x =>
      simp only [hvalue]
      simp

open Format (Required Nullable Defaulted)
open Json (Value)

section

variable {r : Record α} {name : String} {found : Option Value} {into : Value → α}
  (h : r.Finds name (found.map into))
include h

theorem Finds.required {decode : α → Except LoadError β} {P : Value → β → Prop}
    (hdecode : ∀ x, found = some x → ∀ b, decode (into x) = .ok b ↔ P x b) {b : β} :
    r.required name decode = .done b ↔ Required P found b := by
  have hsome : r.required name decode = .done b ↔ r.optional name decode = .done (some b) := by
    unfold Record.required
    cases r.optional name decode with
    | done value? =>
      cases value? with
      | none => cases r <;> simp [absent]
      | some value => simp
    | fault place error => simp
  rw [hsome, h.optional]
  cases found with
  | none =>
    constructor
    · rintro (⟨-, hb⟩ | ⟨x, a, hx, -⟩)
      · cases hb
      · cases hx
    · nofun
  | some x =>
    constructor
    · rintro (⟨hx, -⟩ | ⟨y, a, hy, ha, hb⟩)
      · cases hx
      · cases hy
        cases hb
        exact .given ((hdecode x rfl b).mp ha)
    · rintro ⟨hvalue⟩
      exact Or.inr ⟨into x, b, rfl, (hdecode x rfl b).mpr hvalue, rfl⟩

theorem Finds.defaulted {decode : α → Except LoadError β} {P : Value → β → Prop} {default : β}
    (hdecode : ∀ x, found = some x → ∀ b, decode (into x) = .ok b ↔ P x b) {b : β} :
    r.defaulted name default decode = .done b ↔ Defaulted P default found b := by
  unfold Record.defaulted
  simp only [Reading.map_eq_done_iff, h.optional]
  cases found with
  | none =>
    constructor
    · rintro ⟨a, ⟨-, rfl⟩ | ⟨x, a, hx, -⟩, rfl⟩
      · exact .absent
      · cases hx
    · rintro ⟨⟩
      exact ⟨none, Or.inl ⟨rfl, rfl⟩, rfl⟩
  | some x =>
    constructor
    · rintro ⟨a, ⟨hx, -⟩ | ⟨y, a, hy, ha, rfl⟩, rfl⟩
      · cases hx
      · cases hy
        exact .given ((hdecode x rfl a).mp ha)
    · rintro (_ | ⟨hvalue⟩)
      exact ⟨some b, Or.inr ⟨into x, b, rfl, (hdecode x rfl b).mpr hvalue, rfl⟩, rfl⟩

theorem Finds.nullable {decode : α → Except LoadError (Option β)} {P : Value → β → Prop}
    (hdecode : ∀ x, found = some x → ∀ b, decode (into x) = .ok b ↔
      (x = .null ∧ b = none) ∨ (x ≠ .null ∧ ∃ a, P x a ∧ b = some a)) {b : Option β} :
    (∃ given, r.optional name decode = .done given ∧ given.join = b) ↔ Nullable P found b := by
  simp only [h.optional]
  cases found with
  | none =>
    constructor
    · rintro ⟨given, ⟨-, rfl⟩ | ⟨x, a, hx, -⟩, rfl⟩
      · exact .absent
      · cases hx
    · rintro ⟨⟩
      exact ⟨none, Or.inl ⟨rfl, rfl⟩, rfl⟩
  | some x =>
    constructor
    · rintro ⟨given, ⟨hx, -⟩ | ⟨y, a, hy, ha, rfl⟩, rfl⟩
      · cases hx
      · cases hy
        rcases (hdecode x rfl a).mp ha with ⟨rfl, rfl⟩ | ⟨hnull, value, hvalue, rfl⟩
        · exact .null
        · exact .given hnull hvalue
    · intro hb
      refine ⟨some b, Or.inr ⟨into x, b, rfl, (hdecode x rfl b).mpr ?_, rfl⟩, rfl⟩
      cases hb with
      | null => exact Or.inl ⟨rfl, rfl⟩
      | given hnull hvalue => exact Or.inr ⟨hnull, _, hvalue, rfl⟩

end

theorem others_named {fields : List String} {pass : α → Except LoadError Unit}
    {surplus : LoadError} {members : List (String × α)}
    (h : ∀ key value, (key, value) ∈ members → pass value = .ok ()) :
    (named members).others fields pass surplus = .done () := by
  rw [others]
  dsimp only
  split
  · rfl
  · rename_i place error hrefused
    obtain ⟨⟨⟨key, value⟩, place'⟩, hmem, hrefused⟩ := List.exists_of_findSome?_eq_some hrefused
    have hpass := h key value (List.fst_mem_of_mem_zipIdx hmem)
    simp [hpass] at hrefused

theorem others_listed {fields names : List String} {pass : α → Except LoadError Unit}
    {surplus : LoadError} {items : List α} {u : Unit} :
    (listed names items).others fields pass surplus = .done u ↔ items.length ≤ fields.length := by
  rw [others]
  by_cases h : fields.length < items.length
  · simp [h]
  · simp [h, Nat.not_lt.mp h]

end Record

end Backtrack
