import Mathlib.Data.List.Induction
import Mathlib.Data.List.Nodup
import Backtrack.OrderedMap

/-!
# Many insertions

After any number of insertions the keys stand in the order in which they first came, and each has the
value that it was given last.
-/

namespace Backtrack

set_option autoImplicit false

section EraseDups

variable {α : Type} [DecidableEq α]

theorem eraseDups_concat (xs : List α) (x : α) :
    (xs ++ [x]).eraseDups = if x ∈ xs then xs.eraseDups else xs.eraseDups ++ [x] := by
  rw [List.eraseDups_append]
  by_cases h : x ∈ xs
  · have hgone : [x].removeAll xs = [] := by
      unfold List.removeAll
      simp [h]
    rw [hgone, if_pos h]
    exact List.append_nil _
  · have hkept : [x].removeAll xs = [x] := by
      unfold List.removeAll
      simp [h]
    rw [hkept, if_neg h]
    rfl

theorem nodup_eraseDups (xs : List α) : xs.eraseDups.Nodup := by
  induction xs using List.reverseRecOn with
  | nil => exact .nil
  | append_singleton xs x ih =>
    rw [eraseDups_concat]
    split
    · exact ih
    · rename_i hnew
      rw [← List.concat_eq_append]
      exact ih.concat fun h => hnew (List.mem_eraseDups.mp h)

theorem eraseDups_of_nodup {xs : List α} (h : xs.Nodup) : xs.eraseDups = xs := by
  induction xs using List.reverseRecOn with
  | nil => rfl
  | append_singleton xs x ih =>
    obtain ⟨hxs, -, hne⟩ := List.nodup_append.mp h
    have hx : x ∉ xs := fun hmem => hne x hmem x (List.mem_singleton_self x) rfl
    rw [eraseDups_concat, if_neg hx, ih hxs]

end EraseDups

namespace OrderedMap

variable {α β γ : Type}

def mapValues (f : β → γ) (map : OrderedMap α β) : OrderedMap α γ :=
  ⟨map.entries.map fun (key, value) => (key, f value)⟩

@[simp] theorem keys_mapValues (f : β → γ) (map : OrderedMap α β) :
    (map.mapValues f).keys = map.keys := by
  simp [keys, mapValues]

@[simp] theorem values_mapValues (f : β → γ) (map : OrderedMap α β) :
    (map.mapValues f).values = map.values.map f := by
  simp [values, mapValues]

variable [DecidableEq α]

@[simp] theorem mapValues_insert (f : β → γ) (map : OrderedMap α β) (key : α) (value : β) :
    (map.insert key value).mapValues f = (map.mapValues f).insert key (f value) := by
  obtain ⟨entries⟩ := map
  simp only [insert, mapValues, mk.injEq]
  induction entries with
  | nil => rfl
  | cons entry rest ih =>
    obtain ⟨other, old⟩ := entry
    by_cases h : other = key
    · simp [insertEntry, h]
    · simp [insertEntry, h, ih]

theorem get?_insert (map : OrderedMap α β) (key other : α) (value : β) :
    (map.insert key value).get? other = if other = key then some value else map.get? other := by
  obtain ⟨entries⟩ := map
  simp only [insert, get?]
  induction entries with
  | nil =>
    rw [insertEntry, List.lookup_cons]
    by_cases h : other = key
    · rw [if_pos h, beq_iff_eq.mpr h]
    · rw [if_neg h, beq_false_of_ne h]
  | cons entry rest ih =>
    obtain ⟨first, old⟩ := entry
    by_cases hfirst : first = key
    · rw [insertEntry, if_pos hfirst, List.lookup_cons, List.lookup_cons, hfirst]
      by_cases h : other = key
      · rw [if_pos h, beq_iff_eq.mpr h]
      · rw [if_neg h, beq_false_of_ne h]
    · rw [insertEntry, if_neg hfirst, List.lookup_cons, List.lookup_cons, ih]
      by_cases h : other = first
      · have hne : other ≠ key := fun he => hfirst (h.symm.trans he)
        rw [beq_iff_eq.mpr h]
        exact (if_neg hne).symm
      · rw [beq_false_of_ne h]

/-- Steps that each put a key at the end where it is not there yet leave the keys in the order in
which they first came. -/
theorem keys_foldl {step : OrderedMap α β → γ → OrderedMap α β} {key : γ → α}
    (hstep : ∀ map c, (step map c).keys =
      if key c ∈ map.keys then map.keys else map.keys ++ [key c])
    {map : OrderedMap α β} {seen : List α} (h : map.keys = seen.eraseDups) (added : List γ) :
    (added.foldl step map).keys = (seen ++ added.map key).eraseDups := by
  induction added generalizing map seen with
  | nil =>
    rw [List.map_nil, List.append_nil]
    exact h
  | cons first rest ih =>
    have hfirst : (step map first).keys = (seen ++ [key first]).eraseDups := by
      rw [hstep, eraseDups_concat, h]
      simp only [List.mem_eraseDups]
    rw [List.foldl_cons, List.map_cons, ih hfirst, List.append_assoc]
    rfl

/-- Inserts entries one after the other. -/
def insertAll (map : OrderedMap α β) (added : List (α × β)) : OrderedMap α β :=
  added.foldl (fun map entry => map.insert entry.1 entry.2) map

theorem insertAll_append (map : OrderedMap α β) (first second : List (α × β)) :
    map.insertAll (first ++ second) = (map.insertAll first).insertAll second :=
  List.foldl_append

theorem keys_insertAll {map : OrderedMap α β} {seen : List α} (h : map.keys = seen.eraseDups)
    (added : List (α × β)) :
    (map.insertAll added).keys = (seen ++ added.map Prod.fst).eraseDups :=
  keys_foldl (fun map entry => keys_insert map entry.1 entry.2) h added

/-- What was inserted last under a key counts. -/
theorem get?_insertAll (map : OrderedMap α β) (added : List (α × β)) (key : α) :
    (map.insertAll added).get? key = (added.reverse.lookup key).or (map.get? key) := by
  induction added generalizing map with
  | nil => rfl
  | cons entry rest ih =>
    have hrest : (map.insertAll (entry :: rest)).get? key =
        ((map.insert entry.1 entry.2).insertAll rest).get? key := rfl
    rw [hrest, ih, get?_insert, List.reverse_cons, List.lookup_append, Option.or_assoc]
    congr 1
    rw [List.lookup_cons, List.lookup_nil]
    by_cases h : key = entry.1
    · rw [if_pos h, beq_iff_eq.mpr h, Option.some_or]
    · rw [if_neg h, beq_false_of_ne h, Option.none_or]

end OrderedMap

end Backtrack
