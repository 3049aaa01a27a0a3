/-!
# Maps in order of first insertion

A key that is set again keeps its place and takes the new value.
-/

namespace Backtrack

set_option autoImplicit false

structure OrderedMap (α β : Type) where
  entries : List (α × β) := []
  deriving Repr, Inhabited

namespace OrderedMap

variable {α β : Type} [DecidableEq α]

def keys (map : OrderedMap α β) : List α := map.entries.map Prod.fst

def values (map : OrderedMap α β) : List β := map.entries.map Prod.snd

def get? (map : OrderedMap α β) (key : α) : Option β := map.entries.lookup key

def insertEntry (key : α) (value : β) : List (α × β) → List (α × β)
  | [] => [(key, value)]
  | (other, old) :: rest =>
    if other = key then (key, value) :: rest else (other, old) :: insertEntry key value rest

def insert (map : OrderedMap α β) (key : α) (value : β) : OrderedMap α β :=
  ⟨insertEntry key value map.entries⟩

/-- Sets a key only when it has no value yet. -/
def insertIfNew (map : OrderedMap α β) (key : α) (value : β) : OrderedMap α β :=
  if key ∈ map.keys then map else map.insert key value

theorem keys_insert (map : OrderedMap α β) (key : α) (value : β) :
    (map.insert key value).keys = if key ∈ map.keys then map.keys else map.keys ++ [key] := by
  obtain ⟨entries⟩ := map
  simp only [insert, keys]
  induction entries with
  | nil => rfl
  | cons entry rest ih =>
    obtain ⟨other, old⟩ := entry
    by_cases h : other = key
    · simp [insertEntry, h]
    · have h' : ¬ key = other := fun e => h e.symm
      simp only [insertEntry, if_neg h, List.map_cons, ih, List.mem_cons, h', false_or]
      by_cases hm : key ∈ rest.map Prod.fst <;> simp [hm]

theorem mem_keys_insert {map : OrderedMap α β} {key other : α} {value : β} :
    other ∈ (map.insert key value).keys ↔ other ∈ map.keys ∨ other = key := by
  rw [keys_insert]
  split
  · rename_i h
    exact ⟨Or.inl, fun ho => ho.elim id fun he => he ▸ h⟩
  · rw [List.mem_append, List.mem_singleton]

theorem nodup_keys_insert {map : OrderedMap α β} (h : map.keys.Nodup) (key : α) (value : β) :
    (map.insert key value).keys.Nodup := by
  rw [keys_insert]
  split
  · exact h
  · rename_i hnew
    refine List.nodup_append.mpr ⟨h, List.pairwise_singleton _ key, ?_⟩
    intro a ha b hb he
    rw [List.mem_singleton.mp hb] at he
    exact hnew (he ▸ ha)

theorem keys_insertIfNew (map : OrderedMap α β) (key : α) (value : β) :
    (map.insertIfNew key value).keys =
      if key ∈ map.keys then map.keys else map.keys ++ [key] := by
  by_cases h : key ∈ map.keys
  · simp [insertIfNew, h]
  · simp [insertIfNew, h, keys_insert]

theorem mem_keys_insertIfNew {map : OrderedMap α β} {key other : α} {value : β} :
    other ∈ (map.insertIfNew key value).keys ↔ other ∈ map.keys ∨ other = key := by
  rw [keys_insertIfNew, ← keys_insert map key value, mem_keys_insert]

theorem nodup_keys_insertIfNew {map : OrderedMap α β} (h : map.keys.Nodup) (key : α) (value : β) :
    (map.insertIfNew key value).keys.Nodup := by
  rw [keys_insertIfNew, ← keys_insert map key value]
  exact nodup_keys_insert h key value

/-- Where no key is there twice, each value is found under its key. -/
theorem get?_of_mem {map : OrderedMap α β} (h : map.keys.Nodup) {entry : α × β}
    (hmem : entry ∈ map.entries) : map.get? entry.1 = some entry.2 := by
  obtain ⟨entries⟩ := map
  change entries.lookup entry.1 = some entry.2
  change (entries.map Prod.fst).Nodup at h
  change entry ∈ entries at hmem
  induction entries with
  | nil => cases hmem
  | cons first rest ih =>
    obtain ⟨hfirst, hrest⟩ := List.nodup_cons.mp h
    rcases List.mem_cons.mp hmem with rfl | hmem
    · exact List.lookup_cons_self
    · have hne : entry.1 ≠ first.1 := by
        intro he
        apply hfirst
        rw [← he]
        exact List.mem_map_of_mem hmem
      rw [List.lookup_cons, beq_false_of_ne hne]
      exact ih hrest hmem

theorem map_get?_keys {map : OrderedMap α β} (h : map.keys.Nodup) :
    map.keys.map map.get? = map.values.map some := by
  unfold keys values
  rw [List.map_map, List.map_map]
  apply List.map_congr_left
  intro entry hmem
  exact get?_of_mem h hmem

end OrderedMap

end Backtrack
