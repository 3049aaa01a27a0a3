import Backtrack.Proofs.Labels.Settled

/-!
# Where the slot of a label is

After a match the slot of a held label is that of the whole match. That of a released label is
above it, or was overwritten by a value that the labelled match is a part of.
-/

namespace Backtrack

set_option autoImplicit false

variable {Pos : Type}

/-- A value is a part of another, at any depth. -/
inductive Value.Inside (value : Value Pos) : Value Pos → Prop where
  | part {start stop : Pos} {parts : List (Option (Value Pos))} (h : some value ∈ parts) :
      Inside value (.wrapped start stop parts)
  | deeper {whole : Value Pos} {start stop : Pos} {parts : List (Option (Value Pos))}
      (h : Inside value whole) (hp : some whole ∈ parts) :
      Inside value (.wrapped start stop parts)

namespace Value

theorem sizeOf_lt_wrapped {value : Value Pos} {parts : List (Option (Value Pos))}
    (h : some value ∈ parts) (start stop : Pos) :
    sizeOf value < sizeOf (Value.wrapped start stop parts) := by
  have hpart := List.sizeOf_lt_of_mem h
  simp only [Option.some.sizeOf_spec, Value.wrapped.sizeOf_spec] at hpart ⊢
  omega

theorem Inside.ne {value whole : Value Pos} (h : value.Inside whole) : value ≠ whole := by
  have hlt : sizeOf value < sizeOf whole := by
    induction h with
    | part h => exact sizeOf_lt_wrapped h _ _
    | deeper h hp ih => exact Nat.lt_trans ih (sizeOf_lt_wrapped hp _ _)
  intro he
  rw [he] at hlt
  exact Nat.lt_irrefl _ hlt

end Value

/-- Where the slot of a label is, once an expression at `slot` has matched: a held label is that of
the whole match, and a released one is above it or was overwritten by it. -/
def Binding.Placed (slot : Nat) (whole : Value Pos) (t : Nat) : Binding Pos → Prop
  | .pending => False
  | .held value => t = slot ∧ value = whole
  | .released value => slot < t ∨ t = slot ∧ value.Inside whole

/-- After a match at `slot`: the labels it exports are placed, the others are as before. -/
def Sight.Settling (labels : List String) (slot : Nat) (whole : Value Pos)
    (before after : Sight Pos) : Prop :=
  after.keys.Nodup ∧ ∀ entry ∈ after.entries,
    entry.1 ∈ labels ∧ entry.2.2.Placed slot whole entry.2.1 ∨
      entry.1 ∉ labels ∧ entry ∈ before.entries

/-- As `Settling`, after elements that matched in a row of slots. -/
def Sight.SettlingAll (labels : List String) (slot : Nat) (values : List (Value Pos))
    (before after : Sight Pos) : Prop :=
  after.keys.Nodup ∧ ∀ entry ∈ after.entries,
    entry.1 ∈ labels ∧ (∃ i part, values[i]? = some part ∧
        entry.2.2.Placed (slot + i) part entry.2.1) ∨
      entry.1 ∉ labels ∧ entry ∈ before.entries

namespace Sight

theorem Settling.cons {labels labels' : List String} {slot : Nat} {value : Value Pos}
    {values : List (Value Pos)} {before inside after : Sight Pos}
    (h : before.Settling labels slot value inside)
    (hrest : inside.SettlingAll labels' (slot + 1) values after) :
    before.SettlingAll (labels ++ labels') slot (value :: values) after := by
  refine ⟨hrest.1, ?_⟩
  intro entry hmem
  rcases hrest.2 entry hmem with ⟨hl, i, part, hi, hplaced⟩ | ⟨hl', hin⟩
  · refine Or.inl ⟨List.mem_append_right _ hl, i + 1, part, hi, ?_⟩
    rwa [Nat.add_assoc, Nat.add_comm 1 i] at hplaced
  · rcases h.2 entry hin with ⟨hl, hplaced⟩ | ⟨hl, hold⟩
    · exact Or.inl ⟨List.mem_append_left _ hl, 0, value, rfl, hplaced⟩
    · refine Or.inr ⟨?_, hold⟩
      intro hboth
      rcases List.mem_append.mp hboth with hm | hm
      · exact hl hm
      · exact hl' hm

/-- What is placed in the row is above the whole, or inside it. -/
theorem placed_release {slot i t : Nat} {part : Value Pos} {values : List (Value Pos)}
    {binding : Binding Pos} (hi : values[i]? = some part)
    (h : binding.Placed (slot + i) part t) (start stop : Pos) :
    binding.release.Placed slot (.wrapped start stop (values.map some)) t := by
  have hpart : some part ∈ values.map some :=
    List.mem_map_of_mem (List.mem_of_getElem? hi)
  cases binding with
  | pending => exact h.elim
  | held value =>
    obtain ⟨rfl, rfl⟩ := h
    cases i with
    | zero => exact Or.inr ⟨rfl, .part hpart⟩
    | succ i => exact Or.inl (by omega)
  | released value =>
    rcases h with hlt | ⟨rfl, hinside⟩
    · exact Or.inl (by omega)
    · cases i with
      | zero => exact Or.inr ⟨rfl, .deeper hinside hpart⟩
      | succ i => exact Or.inl (by omega)

theorem SettlingAll.release {labels : List String} {slot : Nat} {values : List (Value Pos)}
    {before after : Sight Pos} (h : before.SettlingAll labels slot values after)
    (start stop : Pos) :
    before.Settling labels slot (.wrapped start stop (values.map some))
      (after.release labels) := by
  have hkeys : (after.release labels).keys = after.keys := by
    simp [Sight.release, OrderedMap.keys]
  refine ⟨hkeys ▸ h.1, ?_⟩
  intro entry hmem
  obtain ⟨⟨label, t, binding⟩, hin, rfl⟩ := List.mem_map.mp hmem
  rcases h.2 _ hin with ⟨hl, i, part, hi, hplaced⟩ | ⟨hl, hold⟩
  · refine Or.inl ⟨hl, ?_⟩
    simp only [if_pos (show label ∈ labels from hl)]
    exact placed_release hi hplaced start stop
  · refine Or.inr ⟨hl, ?_⟩
    simpa only [if_neg (show label ∉ labels from hl)] using hold

theorem settling_refl {sight : Sight Pos} (h : sight.keys.Nodup) (slot : Nat)
    (whole : Value Pos) : sight.Settling [] slot whole sight :=
  ⟨h, fun _ hmem => Or.inr ⟨List.not_mem_nil, hmem⟩⟩

theorem settling_insert {sight : Sight Pos} (h : sight.keys.Nodup) (label : String) (slot : Nat)
    (whole : Value Pos) :
    sight.Settling [label] slot whole (sight.insert label (slot, .held whole)) := by
  refine ⟨OrderedMap.nodup_keys_insert h label _, ?_⟩
  intro entry hmem
  rcases OrderedMap.mem_insert_of_nodup h hmem with rfl | ⟨hin, hne⟩
  · exact Or.inl ⟨List.mem_cons_self, rfl, rfl⟩
  · exact Or.inr ⟨fun hm => hne (List.mem_singleton.mp hm), hin⟩

end Sight

/-- A match of this attempt leaves these labels in sight. -/
def Attempt.EndsWith {α : Type} (bindings : Bindings Pos) (a : Attempt Pos α) : Prop :=
  ∀ value stop bindings', a.outcome = .matched value stop bindings' → bindings' = bindings

namespace Attempt

variable {α β : Type} {bindings : Bindings Pos} {a : Attempt Pos α}

theorem matched_of_andThen {next : α → Pos → Bindings Pos → Attempt Pos β} {value : β}
    {stop : Pos} (h : (a.andThen next).outcome = .matched value stop bindings) :
    ∃ value' stop' bindings', a.outcome = .matched value' stop' bindings' ∧
      (next value' stop' bindings').outcome = .matched value stop bindings := by
  obtain ⟨outcome, events⟩ := a
  cases outcome with
  | cut => cases h
  | failed => cases h
  | matched value' stop' bindings' => exact ⟨value', stop', bindings', rfl, h⟩

theorem endsWith_andThen {next : α → Pos → Bindings Pos → Attempt Pos β}
    (hn : ∀ value stop inside, (next value stop inside).EndsWith bindings) :
    (a.andThen next).EndsWith bindings := by
  intro value stop bindings' h
  obtain ⟨value', stop', inside, -, hnext⟩ := matched_of_andThen h
  exact hn value' stop' inside value stop bindings' hnext

theorem endsWith_matched (value : α) (stop : Pos) :
    (Attempt.matched value stop bindings).EndsWith bindings := by
  intro _ _ _ h
  cases h
  rfl

theorem EndsWith.orElse {next : Attempt Pos α} (h : a.EndsWith bindings)
    (hn : next.EndsWith bindings) : (a.orElse next).EndsWith bindings := by
  obtain ⟨outcome, events⟩ := a
  cases outcome with
  | cut => exact nofun
  | failed => exact hn
  | matched value stop inside => exact h

theorem endsWith_look (a : Attempt Pos (Value Pos)) (negated : Bool) (start : Pos) :
    (a.look negated start bindings).EndsWith bindings := by
  obtain ⟨outcome, events⟩ := a
  intro value stop bindings' h
  cases outcome <;> cases negated <;> cases h <;> rfl

end Attempt

namespace Expr

variable (rt : Runtime Pos) (n : Nat)

/-- A match places the labels that the expression exports. -/
def Places (e : Expr) : Prop :=
  ∀ (slot : Nat) (level : Int) (action : Option UserCode) (sight : Sight Pos) (p : Pos)
    (value : Value Pos) (stop : Pos) (bindings : Bindings Pos), sight.keys.Nodup →
    (e.attempt rt n level sight.bindings action p).outcome = .matched value stop bindings →
    ∃ after : Sight Pos, after.slots = e.envAfter slot sight.slots ∧ after.bindings = bindings ∧
      sight.Settling e.exports slot value after

variable {rt n} in
theorem places_of_endsWith {e : Expr} (hexports : e.exports = [])
    (henv : ∀ slot env, e.envAfter slot env = env)
    (h : ∀ level bindings action p, (e.attempt rt n level bindings action p).EndsWith bindings) :
    e.Places rt n := by
  intro slot level action sight p value stop bindings hnodup hmatched
  obtain rfl := h level sight.bindings action p value stop bindings hmatched
  rw [henv, hexports]
  exact ⟨sight, rfl, rfl, Sight.settling_refl hnodup slot value⟩

theorem places_elements {elements : List Expr} (he : ∀ e ∈ elements, e.Places rt n) (slot : Nat)
    (level : Int) (sight : Sight Pos) (p : Pos) {values : List (Value Pos)} {stop : Pos}
    {bindings : Bindings Pos} (hnodup : sight.keys.Nodup)
    (hmatched : (attemptAll rt n level sight.bindings elements p).outcome =
      .matched values stop bindings) :
    ∃ after : Sight Pos, after.slots = envAfterAll slot sight.slots elements ∧
      after.bindings = bindings ∧ sight.SettlingAll (exportsAll elements) slot values after := by
  induction elements generalizing slot sight p values stop bindings with
  | nil =>
    cases hmatched
    exact ⟨sight, rfl, rfl, hnodup, fun _ hmem => Or.inr ⟨List.not_mem_nil, hmem⟩⟩
  | cons first rest ih =>
    have hrest := ih fun e hmem => he e (List.mem_cons_of_mem first hmem)
    obtain ⟨value, stop₁, inside, hfirst, hmore⟩ := Attempt.matched_of_andThen hmatched
    obtain ⟨values', stop₂, inside', hvalues, hend⟩ := Attempt.matched_of_andThen hmore
    cases hend
    obtain ⟨mid, hslots, rfl, hmid⟩ := he first List.mem_cons_self slot level none sight p value
      stop₁ inside hnodup hfirst
    obtain ⟨after, hslots', hbindings', hafter⟩ := hrest (slot + 1) mid stop₁ hmid.1 hvalues
    rw [hslots] at hslots'
    exact ⟨after, hslots', hbindings', hmid.cons hafter⟩

theorem endsWith_first (level : Int) (bindings : Bindings Pos) (alternatives : List Expr)
    (p : Pos) : (attemptFirst rt n level bindings alternatives p).EndsWith bindings := by
  induction alternatives with
  | nil => exact nofun
  | cons first rest ih =>
    exact (Attempt.endsWith_andThen fun _ _ _ => Attempt.endsWith_matched _ _).orElse ih

theorem endsWith_scanned (level : Int) (bindings : Bindings Pos) (matcher : Matcher) (p : Pos) :
    (rt.attempt level bindings matcher p).EndsWith bindings := by
  intro value stop bindings' h
  simp only [Runtime.attempt] at h
  split at h <;> cases h
  rfl

theorem places (e : Expr) : e.Places rt n := by
  induction e using Expr.induction with
  | named region name inner ih =>
    intro slot level action sight p value stop bindings hnodup hmatched
    refine ih slot (level + 1) action sight p value stop bindings hnodup ?_
    rw [attempt] at hmatched
    generalize inner.attempt rt n (level + 1) sight.bindings action p = a at hmatched ⊢
    obtain ⟨outcome, events⟩ := a
    cases outcome <;> simp_all [Attempt.orElse]
  | choice region alternatives ih =>
    exact places_of_endsWith rfl (fun _ _ => rfl) fun level bindings _ p =>
      endsWith_first rt n level bindings alternatives p
  | sequence region elements ih =>
    intro slot level action sight p value stop bindings hnodup hmatched
    obtain ⟨values, stop', inside, hvalues, hend⟩ := Attempt.matched_of_andThen hmatched
    cases hend
    obtain ⟨after, hslots, rfl, hafter⟩ :=
      places_elements rt n ih slot level sight p hnodup hvalues
    exact ⟨after.release (exportsAll elements), (Sight.slots_release ..).trans hslots,
      Sight.bindings_release .., hafter.release p stop⟩
  | labeled region label inner ih =>
    intro slot level action sight p value stop bindings hnodup hmatched
    obtain ⟨value', stop', inside, -, hend⟩ := Attempt.matched_of_andThen hmatched
    cases hend
    exact ⟨sight.insert label (slot, .held value), Sight.slots_insert .., Sight.bindings_insert ..,
      Sight.settling_insert hnodup label slot value⟩
  | text region inner ih =>
    exact places_of_endsWith rfl (fun _ _ => rfl) fun level bindings _ p =>
      Attempt.endsWith_andThen fun _ _ _ => Attempt.endsWith_matched _ _
  | optional region inner ih =>
    exact places_of_endsWith rfl (fun _ _ => rfl) fun level bindings _ p =>
      (Attempt.endsWith_andThen fun _ _ _ => Attempt.endsWith_matched _ _).orElse
        (Attempt.endsWith_matched _ _)
  | repeated region quantifier inner ih =>
    refine places_of_endsWith rfl (fun _ _ => rfl) fun level bindings _ p =>
      Attempt.endsWith_andThen fun items stop _ => ?_
    split
    · intro _ _ _ he
      cases he
    · exact Attempt.endsWith_matched _ _
  | lookahead region negated inner ih =>
    exact places_of_endsWith rfl (fun _ _ => rfl) fun level bindings _ p =>
      Attempt.endsWith_look _ negated p
  | predicate region negated code =>
    refine places_of_endsWith rfl (fun _ _ => rfl) fun level bindings _ p => ?_
    intro value stop bindings' h
    simp only [attempt] at h
    split at h <;> cases h
    rfl
  | action region code inner ih =>
    refine places_of_endsWith rfl (fun _ _ => rfl) fun level bindings _ p => ?_
    rw [attempt]
    split
    · exact Attempt.endsWith_andThen fun _ _ _ => Attempt.endsWith_matched _ _
    · refine Attempt.endsWith_andThen fun value stop inside => ?_
      intro _ _ _ h
      cases h
      rfl
  | ruleRef region name =>
    exact places_of_endsWith rfl (fun _ _ => rfl) fun level bindings _ p =>
      endsWith_scanned rt level bindings _ p
  | literal region value ignoreCase =>
    exact places_of_endsWith rfl (fun _ _ => rfl) fun level bindings _ p =>
      endsWith_scanned rt level bindings _ p
  | charClass region cls =>
    exact places_of_endsWith rfl (fun _ _ => rfl) fun level bindings _ p =>
      endsWith_scanned rt level bindings _ p
  | any region =>
    exact places_of_endsWith rfl (fun _ _ => rfl) fun level bindings _ p =>
      endsWith_scanned rt level bindings _ p

end Expr

end Backtrack
