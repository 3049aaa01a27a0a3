import Mathlib.Data.List.Forall2
import Backtrack.Proofs.Execution.Attempt
import Backtrack.Proofs.Maps.Insertion

/-!
# How a run follows an attempt

A run follows an attempt when it ends the same way, makes the same calls, and leaves alone the slots
and the positions that were live before. While a label is held, its slot has the labelled match.
-/

namespace Backtrack

set_option autoImplicit false

variable {Pos : Type}

namespace OrderedMap

variable {α β : Type} [DecidableEq α]

theorem mem_insert {map : OrderedMap α β} {key : α} {value : β} {entry : α × β}
    (h : entry ∈ (map.insert key value).entries) :
    entry = (key, value) ∨ entry ∈ map.entries := by
  obtain ⟨entries⟩ := map
  simp only [insert] at h ⊢
  induction entries with
  | nil => exact Or.inl (List.mem_singleton.mp h)
  | cons first rest ih =>
    obtain ⟨other, old⟩ := first
    by_cases hk : other = key
    · rw [insertEntry, if_pos hk] at h
      rcases List.mem_cons.mp h with rfl | h
      · exact Or.inl rfl
      · exact Or.inr (List.mem_cons_of_mem _ h)
    · rw [insertEntry, if_neg hk] at h
      rcases List.mem_cons.mp h with rfl | h
      · exact Or.inr List.mem_cons_self
      · rcases ih h with h | h
        · exact Or.inl h
        · exact Or.inr (List.mem_cons_of_mem _ h)

end OrderedMap

/-- The labels in sight, each with its slot and with what it stands for. -/
abbrev Sight (Pos : Type) := OrderedMap String (Nat × Binding Pos)

namespace Sight

def slots (sight : Sight Pos) : Env := sight.mapValues Prod.fst

def bindings (sight : Sight Pos) : Bindings Pos := sight.mapValues Prod.snd

def release (labels : List String) (sight : Sight Pos) : Sight Pos :=
  ⟨sight.entries.map fun (label, slot, binding) =>
    (label, slot, if label ∈ labels then binding.release else binding)⟩

/-- Every held label has the labelled match in its slot, which is below the given one. -/
def Held (sight : Sight Pos) (slot : Nat) (s : State Pos) : Prop :=
  ∀ label t value, (label, t, .held value) ∈ sight.entries →
    t < slot ∧ s.results t = some value

/-- Every label but the given ones stands for what it stood for before. -/
def Since (labels : List String) (before after : Sight Pos) : Prop :=
  ∀ entry ∈ after.entries, entry.1 ∈ labels ∨ entry ∈ before.entries

@[simp] theorem slots_insert (sight : Sight Pos) (label : String) (slot : Nat)
    (binding : Binding Pos) :
    slots (sight.insert label (slot, binding)) = sight.slots.insert label slot := by
  simp [slots]

@[simp] theorem bindings_insert (sight : Sight Pos) (label : String) (slot : Nat)
    (binding : Binding Pos) :
    bindings (sight.insert label (slot, binding)) = sight.bindings.insert label binding := by
  simp [bindings]

@[simp] theorem slots_release (labels : List String) (sight : Sight Pos) :
    (sight.release labels).slots = sight.slots := by
  simp [slots, release, OrderedMap.mapValues]

@[simp] theorem bindings_release (labels : List String) (sight : Sight Pos) :
    (sight.release labels).bindings = sight.bindings.release labels := by
  simp [bindings, release, Bindings.release, OrderedMap.mapValues]

@[simp] theorem keys_bindings (sight : Sight Pos) : sight.bindings.keys = sight.slots.keys := by
  simp [bindings, slots]

theorem Held.mono {sight : Sight Pos} {slot slot' : Nat} {s : State Pos} (h : sight.Held slot s)
    (hle : slot ≤ slot') : sight.Held slot' s := by
  intro label t value hmem
  obtain ⟨ht, hv⟩ := h label t value hmem
  exact ⟨Nat.lt_of_lt_of_le ht hle, hv⟩

theorem Held.insert_pending {sight : Sight Pos} {slot : Nat} {s : State Pos}
    (h : sight.Held slot s) (label : String) (t : Nat) :
    Held (sight.insert label (t, .pending)) slot s := by
  intro x u value hmem
  rcases OrderedMap.mem_insert hmem with he | hmem
  · simp at he
  · exact h x u value hmem

theorem Held.insert_held {sight : Sight Pos} {slot t : Nat} {s : State Pos}
    (h : sight.Held slot s) (label : String) {value : Value Pos} (ht : t < slot)
    (hv : s.results t = some value) : Held (sight.insert label (t, .held value)) slot s := by
  intro x u v hmem
  rcases OrderedMap.mem_insert hmem with he | hmem
  · cases he
    exact ⟨ht, hv⟩
  · exact h x u v hmem

/-- A label that is still held after a release was none of those released. -/
theorem Held.release {before after : Sight Pos} {labels : List String} {slot : Nat}
    {s s' : State Pos} (hb : before.Held slot s) (hsince : Since labels before after)
    (hk : ∀ i < slot, s'.results i = s.results i) : (after.release labels).Held slot s' := by
  intro x t value hmem
  obtain ⟨⟨y, u, binding⟩, hin, he⟩ := List.mem_map.mp hmem
  by_cases hy : y ∈ labels
  · cases binding <;> simp [hy, Binding.release] at he
  · simp only [if_neg hy, Prod.mk.injEq] at he
    obtain ⟨rfl, rfl, rfl⟩ := he
    rcases hsince _ hin with hl | hold
    · exact absurd hl hy
    · obtain ⟨ht, hv⟩ := hb y u value hold
      exact ⟨ht, (hk u ht).trans hv⟩

theorem since_refl (labels : List String) (sight : Sight Pos) : Since labels sight sight :=
  fun _ h => Or.inr h

theorem since_insert (sight : Sight Pos) (label : String) (found : Nat × Binding Pos) :
    Since [label] sight (sight.insert label found) := by
  intro entry h
  rcases OrderedMap.mem_insert h with rfl | h
  · exact Or.inl List.mem_cons_self
  · exact Or.inr h

theorem Since.trans {first second : List String} {a b c : Sight Pos} (hab : Since first a b)
    (hbc : Since second b c) : Since (first ++ second) a c := by
  intro entry h
  rcases hbc entry h with hl | h
  · exact Or.inl (List.mem_append_right first hl)
  · rcases hab entry h with hl | h
    · exact Or.inl (List.mem_append_left second hl)
    · exact Or.inr h

theorem since_release {labels : List String} {before after : Sight Pos}
    (h : Since labels before after) : Since labels before (after.release labels) := by
  intro entry hmem
  obtain ⟨⟨x, t, binding⟩, hin, rfl⟩ := List.mem_map.mp hmem
  by_cases hx : x ∈ labels
  · exact Or.inl hx
  · simpa only [if_neg hx] using h _ hin

end Sight

/-- The argument for a label that is held is the labelled match. -/
def Binding.Carried : Binding Pos → Option (Value Pos) → Prop
  | .held value, arg => arg = some value
  | _, _ => True

/-- A call as it was made by a run, with arguments that stand in a relation to the labels. -/
inductive Event.Made (passes : Binding Pos → Option (Value Pos) → Prop) :
    Event (Binding Pos) → Event (Option (Value Pos)) → Prop where
  | scanned (matcher : Matcher) : Made passes (.scanned matcher) (.scanned matcher)
  | reported (expected : String) : Made passes (.reported expected) (.reported expected)
  | asked (function : UserFunction) {bindings : List (Binding Pos)}
      {args : List (Option (Value Pos))} (h : List.Forall₂ passes bindings args) :
      Made passes (.asked function bindings) (.asked function args)
  | acted (function : UserFunction) {bindings : List (Binding Pos)}
      {args : List (Option (Value Pos))} (h : List.Forall₂ passes bindings args) :
      Made passes (.acted function bindings) (.acted function args)

/-- From one state to another exactly these calls were made. -/
def Logged (events : List (Int × Event (Binding Pos))) (s s' : State Pos) : Prop :=
  ∃ made, s'.log = s.log ++ made ∧
    List.Forall₂ (fun event call => event.1 = call.1 ∧ event.2.Made Binding.Carried call.2)
      events made

theorem logged_nil {s s' : State Pos} (h : s'.log = s.log) : Logged [] s s' :=
  ⟨[], by rw [h, List.append_nil], .nil⟩

theorem Logged.append {first second : List (Int × Event (Binding Pos))} {a b c : State Pos}
    (hab : Logged first a b) (hbc : Logged second b c) : Logged (first ++ second) a c := by
  obtain ⟨made, hm, hf⟩ := hab
  obtain ⟨more, hm', hs⟩ := hbc
  exact ⟨made ++ more, by rw [hm', hm, List.append_assoc], List.rel_append hf hs⟩

theorem logged_record {s : State Pos} {level : Int} (hs : s.silent = level)
    {event : Event (Binding Pos)} {call : Event (Option (Value Pos))} (h : event.Made Binding.Carried call) :
    Logged [(level, event)] s (s.record call) :=
  ⟨[(s.silent, call)], rfl, .cons ⟨hs.symm, h⟩ .nil⟩

theorem Sight.Held.carried {sight : Sight Pos} {slot : Nat} {s : State Pos}
    (h : sight.Held slot s) :
    List.Forall₂ Binding.Carried sight.bindings.values (s.args sight.slots.values) := by
  simp only [bindings, slots, OrderedMap.values_mapValues, State.args, List.forall₂_map_left_iff,
    List.forall₂_map_right_iff, List.map_map]
  apply List.forall₂_same.mpr
  rintro ⟨t, binding⟩ hmem
  obtain ⟨⟨label, found⟩, hin, hfound⟩ := List.mem_map.mp hmem
  cases hfound
  cases binding with
  | held value => exact (h label t value hin).2
  | pending => trivial
  | released value => trivial

/-- What was live before is as it was. -/
structure Kept (slot start : Nat) (s s' : State Pos) : Prop where
  results : ∀ i < slot, s'.results i = s.results i
  positions : ∀ i < start, s'.positions i = s.positions i
  silent : s'.silent = s.silent

theorem Kept.held_same {slot start : Nat} {s s' : State Pos} (h : Kept slot start s s')
    {sight : Sight Pos} (hs : sight.Held slot s) : sight.Held slot s' := by
  intro label t value hmem
  obtain ⟨ht, hv⟩ := hs label t value hmem
  exact ⟨ht, (h.results t ht).trans hv⟩

theorem Kept.held {slot start : Nat} {s s' : State Pos} (h : Kept slot start s s')
    {sight : Sight Pos} (hs : sight.Held slot s) : sight.Held (slot + 1) s' :=
  (h.held_same hs).mono (Nat.le_succ slot)

theorem Kept.assign {slot start : Nat} {s s' : State Pos} (h : Kept slot start s s')
    (result : Option (Value Pos)) : Kept slot start s (s'.assign slot result) := by
  refine ⟨?_, h.positions, h.silent⟩
  intro i hi
  rw [State.assign_of_ne s' result (Nat.ne_of_lt hi)]
  exact h.results i hi

theorem Kept.record {slot start : Nat} {s s' : State Pos} (h : Kept slot start s s')
    (event : Event (Option (Value Pos))) : Kept slot start s (s'.record event) :=
  ⟨h.results, h.positions, h.silent⟩

theorem Kept.refl (slot start : Nat) (s : State Pos) : Kept slot start s s :=
  ⟨fun _ _ => rfl, fun _ _ => rfl, rfl⟩

theorem Kept.trans {slot start : Nat} {a b c : State Pos} (hab : Kept slot start a b)
    (hbc : Kept slot start b c) : Kept slot start a c := by
  refine ⟨?_, ?_, hbc.silent.trans hab.silent⟩
  · intro i hi
    exact (hbc.results i hi).trans (hab.results i hi)
  · intro i hi
    exact (hbc.positions i hi).trans (hab.positions i hi)

theorem Kept.mono {slot slot' start start' : Nat} {s s' : State Pos} (h : Kept slot' start' s s')
    (hslot : slot ≤ slot') (hstart : start ≤ start') : Kept slot start s s' := by
  refine ⟨?_, ?_, h.silent⟩
  · intro i hi
    exact h.results i (Nat.lt_of_lt_of_le hi hslot)
  · intro i hi
    exact h.positions i (Nat.lt_of_lt_of_le hi hstart)

/-- The position saved first is still there. -/
theorem Kept.saved {slot start : Nat} {s s' : State Pos}
    (h : Kept slot (start + 1) (s.save start) s') : s'.positions start = s.current :=
  (h.positions start (Nat.lt_succ_self start)).trans (s.save_self start)

theorem Kept.of_save {slot start : Nat} {s s' : State Pos}
    (h : Kept slot (start + 1) (s.save start) s') : Kept slot start s s' := by
  refine ⟨h.results, ?_, h.silent⟩
  intro i hi
  rw [h.positions i (Nat.lt_succ_of_lt hi), s.save_of_ne (Nat.ne_of_lt hi)]

/-- A run from `s` follows an attempt whose result goes to `slot`, which leaves the given labels
and puts `env` in sight. -/
inductive Follows (sight : Sight Pos) (labels : List String) (env : Env) (slot start : Nat)
    (s : State Pos) : Ending × State Pos → Attempt Pos (Value Pos) → Prop where
  | cut {s' : State Pos} {events : List (Int × Event (Binding Pos))}
      (log : Logged events s s') :
      Follows sight labels env slot start s (.cut, s') ⟨.cut, events⟩
  | failed {s' : State Pos} {events : List (Int × Event (Binding Pos))}
      (log : Logged events s s') (kept : Kept slot start s s') (result : s'.results slot = none)
      (back : s'.current = s.current) :
      Follows sight labels env slot start s (.done, s') ⟨.failed, events⟩
  | matched {s' : State Pos} {events : List (Int × Event (Binding Pos))} {value : Value Pos}
      {after : Sight Pos} (log : Logged events s s') (kept : Kept slot start s s')
      (result : s'.results slot = some value) (slots : after.slots = env)
      (held : after.Held (slot + 1) s') (since : sight.Since labels after) :
      Follows sight labels env slot start s (.done, s')
        ⟨.matched value s'.current after.bindings, events⟩

end Backtrack
