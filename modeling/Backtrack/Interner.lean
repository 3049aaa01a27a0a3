/-!
# Interning

An interner numbers values in the order in which they are first seen. A value that is already
there keeps its number.
-/

namespace Backtrack

set_option autoImplicit false

structure Interner (α : Type) where
  toList : List α := []
  deriving Repr, Inhabited

namespace Interner

variable {α : Type} [DecidableEq α]

/-- The interner with a value, at the end unless it is there. -/
def add (table : Interner α) (a : α) : Interner α :=
  if a ∈ table.toList then table else ⟨table.toList ++ [a]⟩

/-- The number of a value, with the interner that has it. -/
def intern (table : Interner α) (a : α) : Nat × Interner α :=
  ((table.add a).toList.idxOf a, table.add a)

def size (table : Interner α) : Nat := table.toList.length

theorem mem_add (table : Interner α) (a : α) : a ∈ (table.add a).toList := by
  by_cases h : a ∈ table.toList <;> simp [add, h]

theorem mem_add_iff {table : Interner α} {a b : α} :
    b ∈ (table.add a).toList ↔ b ∈ table.toList ∨ b = a := by
  by_cases h : a ∈ table.toList
  · simp only [add, if_pos h]
    exact ⟨Or.inl, fun hb => hb.elim id fun he => he ▸ h⟩
  · simp [add, h]

theorem add_of_mem {table : Interner α} {a : α} (h : a ∈ table.toList) : table.add a = table :=
  if_pos h

/-- Numbers that were given stay good. -/
theorem toList_isPrefix_add (table : Interner α) (a : α) :
    table.toList <+: (table.add a).toList := by
  by_cases h : a ∈ table.toList <;> simp [add, h]

theorem nodup_add {table : Interner α} (h : table.toList.Nodup) (a : α) :
    (table.add a).toList.Nodup := by
  by_cases hm : a ∈ table.toList
  · simpa [add, hm] using h
  · have apart : ∀ b ∈ table.toList, ¬ b = a := by
      intro b hb e
      subst e
      exact hm hb
    simpa [add, hm, List.nodup_append, h] using apart

end Interner

end Backtrack
