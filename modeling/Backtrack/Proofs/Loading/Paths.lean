import Backtrack.Proofs.Loading.Acceptance

/-!
# The two ways to load a grammar

A text is decoded in its own order and may repeat keys; its value is sorted first and has each key
once. Where no known field is repeated both give the same grammar. Neither the order of the members
nor a key that is there again makes a difference.
-/

namespace Backtrack

set_option autoImplicit false

open Json (Value member? Once valuesOf)

namespace Format

/-- One change anywhere in a value: the members of an object take another order, or a member goes
whose key is there again. -/
inductive Rearranged : Value → Value → Prop where
  | reorder {members members' : List (String × Value)} (same : members.Perm members') :
    Rearranged (.object members) (.object members')
  | drop {before after : List (String × Value)} {key : String} {value : Value}
      (again : key ∈ (before ++ after).map Prod.fst) :
    Rearranged (.object (before ++ (key, value) :: after)) (.object (before ++ after))
  | item {before after : List Value} {v w : Value} (inside : Rearranged v w) :
    Rearranged (.array (before ++ v :: after)) (.array (before ++ w :: after))
  | member {before after : List (String × Value)} {key : String} {v w : Value}
      (inside : Rearranged v w) :
    Rearranged (.object (before ++ (key, v) :: after)) (.object (before ++ (key, w) :: after))

/-- A value and one that is the same or has been changed once. -/
def Near (v w : Value) : Prop := v = w ∨ Rearranged v w

theorem forall₂_near_same (values : List Value) : List.Forall₂ Near values values :=
  List.forall₂_same.mpr fun _ _ => Or.inl rfl

theorem perm_eq_of_short {values others : List Value} (h : values.Perm others)
    (hshort : values.length ≤ 1) : values = others := by
  match values, hshort with
  | [], _ => exact (List.nil_perm.mp h).symm
  | [_], _ => exact List.singleton_perm.mp h

/-- What an object does not repeat is there after a change as well. -/
theorem Rearranged.valuesOf_near {members members' : List (String × Value)}
    (h : Rearranged (.object members) (.object members')) {name : String}
    (honce : Once members name) :
    List.Forall₂ Near (valuesOf name members) (valuesOf name members') := by
  cases h with
  | reorder same =>
    have hperm : (valuesOf name members).Perm (valuesOf name members') := same.filterMap _
    rw [perm_eq_of_short hperm honce]
    exact forall₂_near_same _
  | @drop before after key value again =>
    unfold Once at honce
    rw [Json.valuesOf_append, Json.valuesOf_cons] at *
    by_cases hkey : key = name
    · -- The name is there twice, so it is not one that the object does not repeat.
      have hagain : 0 < (valuesOf name (before ++ after)).length := by
        obtain ⟨⟨other, x⟩, hmem, rfl⟩ := List.mem_map.mp again
        subst hkey
        exact List.length_pos_of_mem (Json.mem_valuesOf.mpr hmem)
      rw [if_pos hkey] at honce
      rw [Json.valuesOf_append] at hagain
      simp only [List.length_append, List.length_cons, List.length_nil] at honce hagain
      omega
    · rw [if_neg hkey, List.nil_append, Json.valuesOf_append]
      exact forall₂_near_same _
  | @member before after key v w inside =>
    rw [Json.valuesOf_append, Json.valuesOf_append, Json.valuesOf_cons, Json.valuesOf_cons]
    apply List.rel_append (forall₂_near_same _)
    apply List.rel_append _ (forall₂_near_same _)
    by_cases hkey : key = name
    · rw [if_pos hkey, if_pos hkey]
      exact .cons (Or.inr inside) .nil
    · rw [if_neg hkey, if_neg hkey]
      exact .nil

theorem rel_getLast? {R : Value → Value → Prop} {values others : List Value}
    (h : List.Forall₂ R values others) : Option.Rel R values.getLast? others.getLast? := by
  rw [List.getLast?_eq_getElem?, List.getLast?_eq_getElem?, h.length_eq]
  exact rel_getElem? h _

theorem tracks_near : Tracks Near Once := by
  refine ⟨fun v => Or.inl rfl, ?_⟩
  rintro v w (rfl | h)
  · exact .same v
  · cases h with
    | item inside =>
      refine .array (List.rel_append (forall₂_near_same _) ?_)
      exact .cons (Or.inr inside) (forall₂_near_same _)
    | reorder same =>
      exact .object fun name honce => rel_getLast? ((Rearranged.reorder same).valuesOf_near honce)
    | drop again =>
      exact .object fun name honce => rel_getLast? ((Rearranged.drop again).valuesOf_near honce)
    | member inside =>
      exact .object fun name honce => rel_getLast? ((Rearranged.member inside).valuesOf_near honce)

theorem Near.once {members members' : List (String × Value)}
    (h : Near (.object members) (.object members')) {name : String} (honce : Once members name) :
    Once members' name := by
  rcases h with h | h
  · cases h
    exact honce
  · unfold Once
    rw [← (h.valuesOf_near honce).length_eq]
    exact honce

/-- Any number of changes leave what a value stands for, and repeat no known field. -/
theorem isGrammar_rearranged {v w : Value} (honce : Unrepeated v)
    (h : Relation.ReflTransGen Rearranged v w) :
    Unrepeated w ∧ ∀ g, IsGrammar v g ↔ IsGrammar w g := by
  induction h with
  | refl => exact ⟨honce, fun g => Iff.rfl⟩
  | tail _ hlast ih =>
    obtain ⟨hbefore, hsame⟩ := ih
    have hnear : Near _ _ := Or.inr hlast
    refine ⟨tracks_near.throughout_congr (fun _ _ _ h => h.once) hbefore hnear, fun g => ?_⟩
    exact (hsame g).trans (tracks_near.isGrammar_congr hbefore hnear g)

theorem ofText_eq_ok_iff {t : String} {v : Value} (h : Json.parse? t = some v) {g : Grammar} :
    Grammar.ofText t = .ok g ↔ grammar text textExpr (Json.ofValue v) = .ok g := by
  simp only [Json.parse?, Option.ite_none_right_eq_some, Bool.and_eq_true] at h
  obtain ⟨⟨hended, -⟩, hroot⟩ := h
  unfold Grammar.ofText
  rw [Json.ofValue_of_value? hroot]
  simp only [hended, if_true, bind_eq_ok_iff]
  constructor
  · rintro ⟨_, hgrammar, ⟨⟩⟩
    exact hgrammar
  · intro hgrammar
    exact ⟨g, hgrammar, rfl⟩

/-- A text in which no known field is repeated is loaded as what its value stands for. -/
theorem ofText_eq_ok_iff_isGrammar {t : String} {v : Value} (h : Json.parse? t = some v)
    (honce : Unrepeated v) {g : Grammar} : Grammar.ofText t = .ok g ↔ IsGrammar v g := by
  rw [ofText_eq_ok_iff h]
  exact textGrammar_eq_ok_iff honce (Json.depth_le_of_parse? h)

end Format

/-- A text in which no known field is repeated and its value load as the same grammar. So does any
other text that comes of it by putting members in another order or leaving out repeated ones. -/
theorem loading_paths_agree {t : String} {v : Value} (h : Json.parse? t = some v)
    (honce : Format.Unrepeated v) :
    (∀ g, Grammar.ofText t = .ok g ↔ Grammar.ofValue v = .ok g) ∧
    ∀ t' v', Json.parse? t' = some v' → Relation.ReflTransGen Format.Rearranged v v' →
      ∀ g, Grammar.ofText t' = .ok g ↔ Grammar.ofText t = .ok g := by
  constructor
  · intro g
    rw [Format.ofText_eq_ok_iff_isGrammar h honce, Format.ofValue_eq_ok_iff]
  · intro t' v' h' hrearranged g
    obtain ⟨honce', hsame⟩ := Format.isGrammar_rearranged honce hrearranged
    rw [Format.ofText_eq_ok_iff_isGrammar h honce, Format.ofText_eq_ok_iff_isGrammar h' honce',
      hsame g]

/-- A node that names its kind after the fields of that kind and has an unknown field twice, and
the same node with the kind in front and the unknown field once. -/
theorem loading_paths_agree_of_late_kind :
    let late := "\x7b\"rules\":[\x7b\"name\":\"R\",\"expression\":\x7b\"name\":\"a\",\"x\":true," ++
      "\"region\":null,\"x\":null,\"type\":\"rule_ref\"\x7d\x7d]\x7d"
    let early := "\x7b\"rules\":[\x7b\"name\":\"R\",\"expression\":\x7b\"type\":\"rule_ref\"," ++
      "\"name\":\"a\",\"region\":null,\"x\":null\x7d\x7d]\x7d"
    let around (node : Value) : Value :=
      .object [("rules", .array [.object [("name", .string "R"), ("expression", node)]])]
    let value := around (.object [("name", .string "a"), ("x", .bool true), ("region", .null),
      ("x", .null), ("type", .string "rule_ref")])
    Json.parse? late = some value ∧ Format.Unrepeated value ∧
      Grammar.ofText late = .ok ⟨[], [⟨"R", .ruleRef none "a", none⟩]⟩ ∧
      Grammar.ofText early = .ok ⟨[], [⟨"R", .ruleRef none "a", none⟩]⟩ := by
  intro late early around value
  have hlate : Json.parse? late = some value := by
    unfold late value around
    cbv
  have hearly : Json.parse? early = some (around (.object [("type", .string "rule_ref"),
      ("name", .string "a"), ("region", .null), ("x", .null)])) := by
    unfold early around
    cbv
  have honce : Format.Unrepeated value := by
    refine Format.throughout_of_everywhere (N := fun _ => True) (.object (by decide) ?_) .grammar
    simp only [List.mem_singleton, Prod.mk.injEq]
    rintro _ _ ⟨-, rfl⟩
    refine .array (List.forall_mem_singleton.mpr (.object (by decide) ?_))
    simp only [List.mem_cons, Prod.mk.injEq, List.not_mem_nil, or_false]
    rintro _ _ (⟨-, rfl⟩ | ⟨-, rfl⟩)
    · exact .string _
    · refine .object (by decide) ?_
      simp only [List.mem_cons, Prod.mk.injEq, List.not_mem_nil, or_false]
      rintro _ _ (⟨-, rfl⟩ | ⟨-, rfl⟩ | ⟨-, rfl⟩ | ⟨-, rfl⟩ | ⟨-, rfl⟩)
      · exact .string _
      · exact .bool _
      · exact .null
      · exact .null
      · exact .string _
  have hvalue : Grammar.ofValue value = .ok ⟨[], [⟨"R", .ruleRef none "a", none⟩]⟩ := rfl
  have hstep {v w : Value} (h : Format.Rearranged v w) :
      Format.Rearranged (around v) (around w) :=
    @Format.Rearranged.member [] [] _ _ _
      (@Format.Rearranged.item [] [] _ _ (@Format.Rearranged.member [_] [] _ _ _ h))
  obtain ⟨hpaths, horder⟩ := loading_paths_agree hlate honce
  refine ⟨hlate, honce, (hpaths _).mpr hvalue, (horder early _ hearly ?_ _).mpr
    ((hpaths _).mpr hvalue)⟩
  refine .tail (.single (hstep (@Format.Rearranged.drop [_] _ _ _ ?_))) (hstep (.reorder ?_))
  · decide
  · exact @List.perm_append_comm _ [_, _, _] [_]

end Backtrack
