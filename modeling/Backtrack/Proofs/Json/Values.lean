import Mathlib.Data.String.Basic
import Backtrack.Json.Basic

/-!
# Plain values among trees

A plain value is also a tree without flaws, and a tree has a plain value exactly when it is one of
these. An object may give a name several values, of which the last counts. In canonical form every
name has one value, and it is the one that counts.
-/

namespace Backtrack.Json

set_option autoImplicit false

theorem induction {motive : Value → Prop} (null : motive .null) (bool : ∀ b, motive (.bool b))
    (number : ∀ n, motive (.number n)) (string : ∀ s, motive (.string s))
    (array : ∀ items, (∀ item ∈ items, motive item) → motive (.array items))
    (object : ∀ members, (∀ key value, (key, value) ∈ members → motive value) →
      motive (.object members))
    (v : Value) : motive v :=
  @Json.rec Empty motive (fun items => ∀ item ∈ items, motive item)
    (fun members => ∀ key value, (key, value) ∈ members → motive value)
    (fun member => motive member.2)
    null bool number string array object nofun
    (fun _ h => absurd h List.not_mem_nil)
    (fun _ _ hfirst hrest => List.forall_mem_cons.mpr ⟨hfirst, hrest⟩)
    (fun _ _ h => absurd h List.not_mem_nil)
    (fun _ _ hfirst hrest key value h => by
      rcases List.mem_cons.mp h with rfl | h
      · exact hfirst
      · exact hrest key value h)
    (fun _ _ h => h) v

section

variable {ε : Type}

mutual

/-- A plain value as a tree without flaws. -/
def ofValue : Value → Json ε
  | .null => .null
  | .bool b => .bool b
  | .number n => .number n
  | .string s => .string s
  | .array items => .array (ofItems items)
  | .object members => .object (ofMembers members)
  | .flaw cause => nomatch cause

def ofItems : List Value → List (Json ε)
  | [] => []
  | item :: rest => ofValue item :: ofItems rest

def ofMembers : List (String × Value) → List (String × Json ε)
  | [] => []
  | (key, value) :: rest => (key, ofValue value) :: ofMembers rest

end

theorem ofItems_eq_map (items : List Value) :
    ofItems items = items.map (ofValue : Value → Json ε) := by
  induction items with
  | nil => rfl
  | cons item rest ih => rw [ofItems, ih, List.map_cons]

theorem ofMembers_eq_map (members : List (String × Value)) :
    ofMembers members =
      members.map fun (key, value) => (key, (ofValue value : Json ε)) := by
  induction members with
  | nil => rfl
  | cons member rest ih => rw [ofMembers, ih, List.map_cons]

end

/-- Among the trees of plain values a value is the tree itself. -/
theorem ofValue_self (v : Value) : (ofValue v : Value) = v := by
  induction v using Json.induction with
  | null | bool | number | string => rfl
  | array items ih =>
    rw [ofValue, ofItems_eq_map, List.map_congr_left ih, List.map_id']
  | object members ih =>
    have hself : ∀ member ∈ members, (member.1, (ofValue member.2 : Value)) = member :=
      fun (key, value) h => by rw [ih key value h]
    rw [ofValue, ofMembers_eq_map, List.map_congr_left hself, List.map_id']

mutual

theorem ofValue_of_value? : ∀ {tree : Json Flaw} {v : Value},
    tree.value? = some v → ofValue v = tree
  | .null, _, h | .bool _, _, h | .number _, _, h | .string _, _, h => by
    cases h; rfl
  | .array items, _, h => by
    obtain ⟨values, hvalues, rfl⟩ := Option.map_eq_some_iff.mp h
    rw [ofValue, ofItems_of_itemValues? hvalues]
  | .object members, _, h => by
    obtain ⟨values, hvalues, rfl⟩ := Option.map_eq_some_iff.mp h
    rw [ofValue, ofMembers_of_memberValues? hvalues]
  | .flaw _, _, h => by cases h

theorem ofItems_of_itemValues? : ∀ {items : List (Json Flaw)} {values : List Value},
    itemValues? items = some values → ofItems values = items
  | [], _, h => by cases h; rfl
  | item :: rest, _, h => by
    simp only [itemValues?, Option.bind_eq_bind, Option.bind_eq_some_iff, Option.pure_def,
      Option.some.injEq] at h
    obtain ⟨value, hvalue, values, hvalues, rfl⟩ := h
    rw [ofItems, ofValue_of_value? hvalue, ofItems_of_itemValues? hvalues]

theorem ofMembers_of_memberValues? :
    ∀ {members : List (String × Json Flaw)} {values : List (String × Value)},
      memberValues? members = some values → ofMembers values = members
  | [], _, h => by cases h; rfl
  | (key, item) :: rest, _, h => by
    simp only [memberValues?, Option.bind_eq_bind, Option.bind_eq_some_iff, Option.pure_def,
      Option.some.injEq] at h
    obtain ⟨value, hvalue, values, hvalues, rfl⟩ := h
    rw [ofMembers, ofValue_of_value? hvalue, ofMembers_of_memberValues? hvalues]

end

@[simp] theorem value?_ofValue (v : Value) : (ofValue v).value? = some v := by
  induction v using Json.induction with
  | null | bool | number | string => rfl
  | array items ih =>
    have hitems : itemValues? (ofItems items) = some items := by
      induction items with
      | nil => rfl
      | cons item rest ihrest =>
        have hrest := ihrest fun v hv => ih v (List.mem_cons_of_mem _ hv)
        rw [ofItems, itemValues?, ih item List.mem_cons_self, hrest]
        rfl
    rw [ofValue, value?, hitems, Option.map_some]
  | object members ih =>
    have hmembers : memberValues? (ofMembers members) = some members := by
      induction members with
      | nil => rfl
      | cons member rest ihrest =>
        have hrest := ihrest fun key v hv => ih key v (List.mem_cons_of_mem _ hv)
        rw [ofMembers, memberValues?, ih member.1 member.2 List.mem_cons_self, hrest]
        rfl
    rw [ofValue, value?, hmembers, Option.map_some]

theorem depth_ofValue (v : Value) : (ofValue v : Json Flaw).depth = v.depth :=
  (depth_of_value? (value?_ofValue v)).symm

theorem depth_lt_of_mem_items {items : List Value} {item : Value} (h : item ∈ items) :
    item.depth < (array items : Value).depth := by
  have hle : item.depth ≤ itemsDepth items := by
    induction items with
    | nil => cases h
    | cons first rest ih =>
      rw [itemsDepth]
      rcases List.mem_cons.mp h with rfl | h
      · exact Nat.le_max_left _ _
      · exact Nat.le_trans (ih h) (Nat.le_max_right _ _)
  rw [depth]
  omega

theorem depth_lt_of_mem_members {members : List (String × Value)} {key : String} {value : Value}
    (h : (key, value) ∈ members) : value.depth < (object members : Value).depth := by
  have hle : value.depth ≤ membersDepth members := by
    induction members with
    | nil => cases h
    | cons first rest ih =>
      rw [membersDepth]
      rcases List.mem_cons.mp h with rfl | h
      · exact Nat.le_max_left _ _
      · exact Nat.le_trans (ih h) (Nat.le_max_right _ _)
  rw [depth]
  omega

section

variable {α β : Type}

/-- What an object gives under a name, in order. -/
def valuesOf (name : String) (members : List (String × α)) : List α :=
  members.filterMap fun (key, value) => if key = name then some value else none

/-- What counts under a name: the last of equal keys. -/
def member? (name : String) (members : List (String × α)) : Option α :=
  (valuesOf name members).getLast?

/-- The name is there at most once. -/
def Once (members : List (String × α)) (name : String) : Prop :=
  (valuesOf name members).length ≤ 1

instance (members : List (String × α)) (name : String) : Decidable (Once members name) :=
  inferInstanceAs (Decidable (_ ≤ _))

variable {name key : String} {members : List (String × α)} {value : α}

theorem valuesOf_cons :
    valuesOf name ((key, value) :: members) =
      (if key = name then [value] else []) ++ valuesOf name members := by
  unfold valuesOf
  by_cases h : key = name
  · simp [h]
  · simp [h]

theorem valuesOf_append (before after : List (String × α)) :
    valuesOf name (before ++ after) = valuesOf name before ++ valuesOf name after :=
  List.filterMap_append

theorem valuesOf_map (f : α → β) :
    valuesOf name (members.map fun (key, value) => (key, f value)) =
      (valuesOf name members).map f := by
  unfold valuesOf
  rw [List.filterMap_map, List.map_filterMap]
  congr 1
  funext member
  by_cases h : member.1 = name
  · simp [h]
  · simp [h]

theorem mem_valuesOf : value ∈ valuesOf name members ↔ (name, value) ∈ members := by
  unfold valuesOf
  rw [List.mem_filterMap]
  constructor
  · rintro ⟨⟨key, given⟩, hmem, h⟩
    dsimp only at h
    split at h
    · rename_i hkey
      cases h
      exact hkey ▸ hmem
    · cases h
  · intro h
    exact ⟨(name, value), h, if_pos rfl⟩

theorem mem_of_member? (h : member? name members = some value) : (name, value) ∈ members :=
  mem_valuesOf.mp (List.mem_of_getLast? h)

theorem Once.valuesOf_eq (h : Once members name) :
    valuesOf name members = (member? name members).toList := by
  unfold Once at h
  unfold member?
  match valuesOf name members, h with
  | [], _ => rfl
  | [_], _ => rfl

theorem valuesOf_eq_nil (h : name ∉ members.map Prod.fst) : valuesOf name members = [] := by
  apply List.eq_nil_iff_forall_not_mem.mpr
  intro value hvalue
  exact h (List.mem_map.mpr ⟨(name, value), mem_valuesOf.mp hvalue, rfl⟩)

theorem once_of_nodup (h : (members.map Prod.fst).Nodup) : Once members name := by
  induction members with
  | nil => exact Nat.zero_le 1
  | cons member rest ih =>
    obtain ⟨key, value⟩ := member
    obtain ⟨hnew, hrest⟩ := List.nodup_cons.mp h
    unfold Once
    rw [valuesOf_cons]
    by_cases hkey : key = name
    · subst hkey
      rw [if_pos rfl, valuesOf_eq_nil hnew]
      exact Nat.le_refl 1
    · rw [if_neg hkey]
      exact ih hrest

end

/-- The members stand in strict order of their keys. -/
def Sorted (members : List (String × Value)) : Prop :=
  members.Pairwise fun a b => a.1 < b.1

theorem mem_insertMember {key : String} {value : Value} {members : List (String × Value)}
    {member : String × Value} (h : member ∈ insertMember key value members) :
    member = (key, value) ∨ member ∈ members := by
  fun_induction insertMember key value members with
  | case1 => exact Or.inl (List.mem_singleton.mp h)
  | case2 other kept rest hlt =>
    rcases List.mem_cons.mp h with h | h
    · exact Or.inl h
    · exact Or.inr h
  | case3 kept rest hlt => exact Or.inr h
  | case4 other kept rest hlt hne ih =>
    rcases List.mem_cons.mp h with h | h
    · exact Or.inr (h ▸ List.mem_cons_self)
    · rcases ih h with h | h
      · exact Or.inl h
      · exact Or.inr (List.mem_cons_of_mem _ h)

theorem Sorted.insertMember {members : List (String × Value)} (h : Sorted members) (key : String)
    (value : Value) : Sorted (insertMember key value members) := by
  fun_induction Json.insertMember key value members with
  | case1 => exact List.pairwise_singleton _ _
  | case2 other kept rest hlt =>
    refine List.pairwise_cons.mpr ⟨?_, h⟩
    intro member hmem
    rcases List.mem_cons.mp hmem with rfl | hmem
    · exact hlt
    · exact lt_trans hlt ((List.pairwise_cons.mp h).1 member hmem)
  | case3 kept rest hlt => exact h
  | case4 other kept rest hlt hne ih =>
    obtain ⟨hfirst, hrest⟩ := List.pairwise_cons.mp h
    refine List.pairwise_cons.mpr ⟨?_, ih hrest⟩
    intro member hmem
    rcases mem_insertMember hmem with rfl | hmem
    · exact lt_of_le_of_ne (not_lt.mp hlt) (Ne.symm hne)
    · exact hfirst member hmem

theorem sorted_canonicalMembers (members : List (String × Value)) :
    Sorted (canonicalMembers members) := by
  induction members with
  | nil => exact List.Pairwise.nil
  | cons member rest ih => exact ih.insertMember member.1 (canonical member.2)

theorem Sorted.nodup {members : List (String × Value)} (h : Sorted members) :
    (members.map Prod.fst).Nodup :=
  List.pairwise_map.mpr (h.imp fun hlt => ne_of_lt hlt)

/-- A member that is placed counts only where its name has no value yet. -/
theorem valuesOf_insertMember {members : List (String × Value)} (h : Sorted members)
    (name key : String) (value : Value) :
    valuesOf name (insertMember key value members) =
      if valuesOf name members = [] ∧ key = name then [value] else valuesOf name members := by
  fun_induction Json.insertMember key value members with
  | case1 => by_cases hkey : key = name <;> simp [valuesOf, hkey]
  | case2 other kept rest hlt =>
    by_cases hkey : key = name
    · have hnone : valuesOf name ((other, kept) :: rest) = [] := by
        apply List.eq_nil_iff_forall_not_mem.mpr
        intro v hv
        rcases List.mem_cons.mp (mem_valuesOf.mp hv) with heq | hmem
        · cases heq
          exact lt_irrefl _ (hkey ▸ hlt)
        · have hlater := (List.pairwise_cons.mp h).1 _ hmem
          exact lt_asymm hlt (hkey ▸ hlater)
      rw [valuesOf_cons, hnone, if_pos hkey, if_pos ⟨rfl, hkey⟩, List.append_nil]
    · rw [valuesOf_cons, if_neg hkey, if_neg fun hand => hkey hand.2, List.nil_append]
  | case3 kept rest hlt =>
    split
    · rename_i hand
      rw [valuesOf_cons, if_pos hand.2] at hand
      cases hand.1
    · rfl
  | case4 other kept rest hlt hne ih =>
    rw [valuesOf_cons, ih (List.pairwise_cons.mp h).2, valuesOf_cons]
    by_cases hother : other = name
    · have hkey : key ≠ name := fun heq => hne (heq.trans hother.symm)
      simp [hother, hkey]
    · simp [hother]

/-- What counts under a name counts in canonical form too. -/
theorem member?_canonicalMembers (name : String) (members : List (String × Value)) :
    member? name (canonicalMembers members) = (member? name members).map canonical := by
  induction members with
  | nil => rfl
  | cons member rest ih =>
    obtain ⟨key, value⟩ := member
    unfold member? at ih ⊢
    rw [canonicalMembers, valuesOf_insertMember (sorted_canonicalMembers rest), valuesOf_cons]
    cases hrest : valuesOf name rest with
    | nil =>
      rw [hrest, List.getLast?_nil, Option.map_none, List.getLast?_eq_none_iff] at ih
      by_cases hkey : key = name
      · simp [ih, hkey]
      · simp [ih, hkey]
    | cons v vs =>
      rw [hrest] at ih
      have hsome : valuesOf name (canonicalMembers rest) ≠ [] := by
        intro hnil
        rw [hnil, List.getLast?_nil, eq_comm, Option.map_eq_none_iff,
          List.getLast?_eq_none_iff] at ih
        cases ih
      rw [if_neg fun hand => hsome hand.1, ih]
      by_cases hkey : key = name
      · simp [hkey, List.getLast?_cons_cons]
      · simp [hkey]

theorem canonicalItems_eq_map (items : List Value) :
    canonicalItems items = items.map canonical := by
  induction items with
  | nil => rfl
  | cons item rest ih => rw [canonicalItems, ih, List.map_cons]

theorem mem_canonicalMembers {members : List (String × Value)} {key : String} {value : Value}
    (h : (key, value) ∈ canonicalMembers members) :
    ∃ given, (key, given) ∈ members ∧ canonical given = value := by
  induction members with
  | nil => cases h
  | cons member rest ih =>
    rcases mem_insertMember h with h | h
    · cases h
      exact ⟨member.2, List.mem_cons_self, rfl⟩
    · obtain ⟨given, hmem, heq⟩ := ih h
      exact ⟨given, List.mem_cons_of_mem _ hmem, heq⟩

section

variable (N : Number → Prop) (M : List (String × Value) → Prop)

/-- `N` holds of every number inside and `M` of the members of every object. -/
inductive Everywhere : Value → Prop where
  | null : Everywhere .null
  | bool (b : Bool) : Everywhere (.bool b)
  | number {n : Number} (here : N n) : Everywhere (.number n)
  | string (s : String) : Everywhere (.string s)
  | array {items : List Value} (inside : ∀ item ∈ items, Everywhere item) :
    Everywhere (.array items)
  | object {members : List (String × Value)} (here : M members)
      (inside : ∀ key value, (key, value) ∈ members → Everywhere value) :
    Everywhere (.object members)

end

theorem Everywhere.mono {N N' : Number → Prop} {M M' : List (String × Value) → Prop}
    (hN : ∀ n, N n → N' n) (hM : ∀ members, M members → M' members) {v : Value}
    (h : Everywhere N M v) : Everywhere N' M' v := by
  induction h with
  | null => exact .null
  | bool b => exact .bool b
  | number here => exact .number (hN _ here)
  | string s => exact .string s
  | array inside ih => exact .array ih
  | object here inside ih => exact .object (hM _ here) ih

/-- In canonical form no object repeats a key. -/
theorem everywhere_canonical (v : Value) :
    Everywhere (fun _ => True) (fun members => ∀ name, Once members name) v.canonical := by
  induction v using Json.induction with
  | null => exact .null
  | bool b => exact .bool b
  | number n => exact .number trivial
  | string s => exact .string s
  | array items ih =>
    rw [canonical, canonicalItems_eq_map]
    refine .array fun item hitem => ?_
    obtain ⟨given, hgiven, rfl⟩ := List.mem_map.mp hitem
    exact ih given hgiven
  | object members ih =>
    refine .object (fun name => ?_) fun key value hmem => ?_
    · exact once_of_nodup (sorted_canonicalMembers members).nodup
    · obtain ⟨given, hgiven, rfl⟩ := mem_canonicalMembers hmem
      exact ih key given hgiven

end Backtrack.Json
