import Backtrack.Proofs.Loading.Nodes

/-!
# Decoding documents

A plain value and the tree of a text that nests no deeper than allowed are decoded alike: where no
known field is repeated, they give the grammar that the value stands for.
-/

namespace Backtrack.Format

set_option autoImplicit false

open Json (Value ofValue ofItems ofMembers member? Once)

mutual

theorem isClosed_ofValue : ∀ v : Value, (ofValue v : Json Json.Flaw).isClosed = true
  | .null | .bool _ | .number _ | .string _ => rfl
  | .array items => itemsClosed_ofItems items
  | .object members => membersClosed_ofMembers members

theorem itemsClosed_ofItems : ∀ items : List Value,
    Json.itemsClosed (ofItems items) = true
  | [] => rfl
  | item :: rest => by
    rw [ofItems, Json.itemsClosed, isClosed_ofValue item, itemsClosed_ofItems rest, Bool.and_self]

theorem membersClosed_ofMembers : ∀ members : List (String × Value),
    Json.membersClosed (ofMembers members) = true
  | [] => rfl
  | (key, value) :: rest => by
    rw [ofMembers, Json.membersClosed, isClosed_ofValue value, membersClosed_ofMembers rest,
      Bool.and_self]

end

/-- A text has nothing to say against a well-formed value. -/
theorem pass_text (v : Value) : text.pass (ofValue v) = .ok () := by
  have hclosed := isClosed_ofValue v
  cases v with
  | flaw cause => cases cause
  | array items | object members =>
    simp only [text, ofValue] at hclosed ⊢
    rw [if_pos hclosed]
  | _ => rfl

theorem held_ofValue {x : Value} (h : nodeDepth + x.depth ≤ Json.maxDepth) :
    held (ofValue x) = .ok x := by
  unfold held
  rw [Json.depth_ofValue, if_pos h, Json.value?_ofValue]
  rfl

theorem heldMembers_ofMembers {members : List (String × Value)}
    (h : ∀ key x, (key, x) ∈ members → nodeDepth + x.depth ≤ Json.maxDepth) (place : Nat) :
    heldMembers place (ofMembers members) = .done (members.filter (·.1 ≠ "region")) := by
  induction members generalizing place with
  | nil => rfl
  | cons member rest ih =>
    obtain ⟨key, x⟩ := member
    have hrest := ih (fun key x hx => h key x (List.mem_cons_of_mem _ hx)) (place + 1)
    rw [ofMembers, heldMembers, hrest]
    by_cases hkey : key = "region"
    · simp [hkey]
    · rw [if_neg hkey, held_ofValue (h key x List.mem_cons_self)]
      simp [hkey]
      rfl

theorem valuesOf_filter {members : List (String × Value)} {name : String} (h : name ≠ "region") :
    Json.valuesOf name (members.filter (·.1 ≠ "region")) = Json.valuesOf name members := by
  unfold Json.valuesOf
  rw [List.filterMap_filter]
  congr 1
  funext member
  by_cases hkey : member.1 = name
  · simp [hkey, h]
  · simp [hkey]

theorem textExpr_eq_ok_iff {v : Value} (honce : Throughout Once .node v)
    (hdepth : v.depth + 3 ≤ Json.maxDepth) {e : Expr} :
    textExpr (ofValue v) = .ok e ↔ IsExpr v e := by
  cases v with
  | flaw cause => cases cause
  | object members =>
    have hshows : Shape.node.Shows (.object members) _ := .object members
    have hvalues : ∀ name content,
        Shape.node.Knows (fun name => member? name members) name content →
        Json.valuesOf name members = (member? name members).toList :=
      fun name content hknown => (honce .node members .refl name content hknown).valuesOf_eq
    have hregion : ∀ region, regionField text (.named (ofMembers members)) = .done region ↔
        Nullable IsRegion (member? "region" members) region := by
      intro region
      apply regionField_eq_done_iff pass_text
      · change Json.valuesOf "region" (ofMembers members) = _
        rw [Json.ofMembers_eq_map, Json.valuesOf_map,
          hvalues "region" (.one .region) (.field (by decide)), Option.toList_map]
      · exact fun x hx => honce.one hshows (.field (by decide)) hx
    have hheld : heldMembers 0 (ofMembers members) = .done (members.filter (·.1 ≠ "region")) := by
      apply heldMembers_ofMembers
      intro key x hx
      have hlt := Json.depth_lt_of_mem_members hx
      unfold nodeDepth
      omega
    have hnode : ∀ region, node region (fields (members.filter (·.1 ≠ "region"))) = .ok e ↔
        ∃ kind, Required IsKind (member? "type" members) kind ∧
          HoldsNode IsExpr kind (fun name => member? name members) region e := by
      intro region
      refine @node_eq_ok_iff _ (fun name => member? name members) region ?_ ?_ ?_ e
      · intro name content hknown hname
        rw [valuesOf_filter hname]
        exact hvalues name content hknown
      · intro name x hknown hx e
        exact expr_eq_ok_iff (honce.one hshows hknown hx)
      · intro name x hknown hx es
        apply (expr_and_exprs_eq_ok_iff x).2
        rintro items rfl item hitem
        exact honce.many hshows hknown hx hitem
    rw [ofValue, textExpr, isExpr_object_iff, bind_eq_ok_iff]
    constructor
    · rintro ⟨⟨region, values⟩, hread, hok⟩
      rw [Reading.toExcept_eq_ok_iff, Reading.map₂_eq_done_iff, hheld] at hread
      obtain ⟨_, _, hfound, hsame, heq⟩ := hread
      cases hsame
      cases heq
      exact ⟨region, (hregion region).mp hfound, (hnode region).mp hok⟩
    · rintro ⟨region, hfound, hok⟩
      refine ⟨(region, members.filter (·.1 ≠ "region")), ?_, (hnode region).mpr hok⟩
      rw [Reading.toExcept_eq_ok_iff, Reading.map₂_eq_done_iff, hheld]
      exact ⟨_, _, (hregion region).mpr hfound, rfl, rfl⟩
  | _ => exact ⟨nofun, nofun⟩

section

variable {ε : Type} {source : Source ε} (hpass : ∀ v, source.pass (ofValue v) = .ok ())
  {decode : Json ε → Except LoadError Expr}
include hpass

theorem rule_eq_ok_iff {v : Value} (honce : Throughout Once .rule v)
    (hexpr : ∀ x, Throughout Once .node x → x.depth < v.depth →
      ∀ e, decode (ofValue x) = .ok e ↔ IsExpr x e) {r : Rule} :
    rule source decode (ofValue v) = .ok r ↔ IsRule v r := by
  apply record_eq_ok_iff hpass (by decide) honce
  intro record held hshows hfinds r
  have hname : ∀ s, record.required "name" (string source) = .done s ↔
      Required IsString (held "name") s :=
    fun s => (hfinds "name" (by decide)).required fun x _ s => string_eq_ok_iff source
  have hexpression : ∀ e, record.required "expression" decode = .done e ↔
      Required IsExpr (held "expression") e := by
    intro e
    apply (hfinds "expression" (by decide)).required
    intro x hx
    exact hexpr x (honce.one hshows (.field (by decide)) hx) (hshows.depth_lt hx)
  have hregion : ∀ region, regionField source record = .done region ↔
      Nullable IsRegion (held "region") region := by
    intro region
    apply regionField_eq_done_iff hpass (hfinds "region" (by decide))
    exact fun x hx => honce.one hshows (.field (by decide)) hx
  rw [Reading.map₃_eq_done_iff]
  simp only [hname, hexpression, hregion]
  constructor
  · rintro ⟨name, e, region, h, h', h'', rfl⟩
    exact ⟨h, h', h''⟩
  · rintro ⟨h, h', h''⟩
    exact ⟨_, _, _, h, h', h'', rfl⟩

theorem grammar_eq_ok_iff {v : Value} (honce : Unrepeated v)
    (hexpr : ∀ x, Throughout Once .node x → x.depth + 3 ≤ v.depth →
      ∀ e, decode (ofValue x) = .ok e ↔ IsExpr x e) {g : Grammar} :
    grammar source decode (ofValue v) = .ok g ↔ IsGrammar v g := by
  apply record_eq_ok_iff hpass (by decide) honce
  intro record held hshows hfinds g
  have hinitializers : ∀ codes,
      record.defaulted "initializers" [] (list source (initializer source)) = .done codes ↔
        Defaulted (IsList IsInitializer) [] (held "initializers") codes := by
    intro codes
    apply (hfinds "initializers" (by decide)).defaulted
    intro x hx codes
    apply list_eq_ok_iff
    rintro items rfl item hitem code
    exact initializer_eq_ok_iff hpass (honce.many hshows (.field (by decide)) hx hitem)
  have hrules : ∀ rules, record.required "rules" (list source (rule source decode)) = .done rules ↔
      Required (IsList IsRule) (held "rules") rules := by
    intro rules
    apply (hfinds "rules" (by decide)).required
    intro x hx rules
    apply list_eq_ok_iff
    rintro items rfl item hitem r
    have hitems := hshows.depth_lt hx
    have hdepth := Json.depth_lt_of_mem_items hitem
    apply rule_eq_ok_iff hpass (honce.many hshows (.field (by decide)) hx hitem)
    intro y hy hlt
    exact hexpr y hy (by omega)
  rw [Reading.map₂_eq_done_iff]
  simp only [hinitializers, hrules]
  constructor
  · rintro ⟨codes, rules, h, h', rfl⟩
    exact ⟨h, h'⟩
  · rintro ⟨h, h'⟩
    exact ⟨_, _, h, h', rfl⟩

end

theorem plainGrammar_eq_ok_iff {v : Value} (honce : Unrepeated v) {g : Grammar} :
    grammar plain expr v = .ok g ↔ IsGrammar v g := by
  have hvalue : grammar plain expr (ofValue v) = .ok g ↔ IsGrammar v g := by
    apply grammar_eq_ok_iff (fun _ => rfl) honce
    intro x hx _ e
    rw [Json.ofValue_self]
    exact expr_eq_ok_iff hx
  rwa [Json.ofValue_self] at hvalue

theorem textGrammar_eq_ok_iff {v : Value} (honce : Unrepeated v) (hdepth : v.depth ≤ Json.maxDepth)
    {g : Grammar} : grammar text textExpr (ofValue v) = .ok g ↔ IsGrammar v g := by
  apply grammar_eq_ok_iff pass_text honce
  intro x hx hlt e
  exact textExpr_eq_ok_iff hx (by omega)

section

variable {N : Json.Number → Prop} {M : List (String × Value) → Prop}

theorem Shape.Shows.everywhere {shape : Shape} {v x : Value} {held : String → Option Value}
    (h : shape.Shows v held) {name : String} (hheld : held name = some x)
    (hv : Json.Everywhere N M v) : Json.Everywhere N M x := by
  cases h with
  | object members =>
    cases hv with
    | object here inside => exact inside name x (Json.mem_of_member? hheld)
  | array items listed short =>
    cases hv with
    | array inside => exact inside x (List.mem_of_getElem? hheld)

theorem Inner.everywhere {outer inner : Shape × Value} (h : Inner outer inner)
    (hv : Json.Everywhere N M outer.2) : Json.Everywhere N M inner.2 := by
  cases h with
  | one shows known here => exact shows.everywhere here hv
  | many shows known here item =>
    cases shows.everywhere here hv with
    | array inside => exact inside _ item

theorem everywhere_of_reads {outer inner : Shape × Value}
    (h : Relation.ReflTransGen Inner outer inner) (hv : Json.Everywhere N M outer.2) :
    Json.Everywhere N M inner.2 := by
  induction h with
  | refl => exact hv
  | tail _ hlast ih => exact hlast.everywhere ih

end

/-- The names of all fields. -/
def fieldNames : List String :=
  [.grammar, .initializer, .rule, .region, .position, .node].flatMap Shape.names ++
    Kind.all.flatMap fun kind => (kindFields kind).map Prod.fst

theorem Shape.Knows.mem_fieldNames {held : String → Option Value} {shape : Shape} {name : String}
    {content : Content} (h : shape.Knows held name content) : name ∈ fieldNames := by
  rw [fieldNames, List.mem_append, List.mem_flatMap, List.mem_flatMap]
  cases h with
  | field listed =>
    exact Or.inl ⟨shape, by cases shape <;> decide, List.mem_map_of_mem listed⟩
  | @ofKind kind _ _ tag listed =>
    exact Or.inr ⟨kind, kind.mem_all, List.mem_map_of_mem listed⟩

theorem throughout_of_everywhere {N : Json.Number → Prop}
    {P : List (String × Value) → String → Prop} {v : Value}
    (h : Json.Everywhere N (fun members => ∀ name ∈ fieldNames, P members name) v)
    (shape : Shape) : Throughout P shape v := by
  intro inner members hreads name content hknows
  cases everywhere_of_reads hreads h with
  | object here inside => exact here name hknows.mem_fieldNames

end Backtrack.Format
