import Backtrack.Grammar.Format.Document
import Backtrack.Proofs.Loading.Records

/-!
# Decoding finds what a value stands for

Where no known field is repeated, decoding a value succeeds with exactly what the value stands for.
This holds of plain values and of the trees of texts, which are decoded by the same rules.
-/

namespace Backtrack.Format

set_option autoImplicit false

open Json (Value ofValue ofItems ofMembers member? Once)

namespace Throughout

variable {P : List (String × Value) → String → Prop} {shape inner : Shape} {v x : Value}
  {held : String → Option Value} {name : String} (h : Throughout P shape v)
include h

theorem of_inner (hinner : Inner (shape, v) (inner, x)) : Throughout P inner x :=
  fun deeper members hreads => h deeper members (.head hinner hreads)

theorem one (hshows : shape.Shows v held) (hknown : shape.Knows held name (.one inner))
    (hheld : held name = some x) : Throughout P inner x :=
  h.of_inner (.one hshows hknown hheld)

theorem many {items : List Value} (hshows : shape.Shows v held)
    (hknown : shape.Knows held name (.many inner)) (hheld : held name = some (.array items))
    (hitem : x ∈ items) : Throughout P inner x :=
  h.of_inner (.many hshows hknown hheld hitem)

end Throughout

theorem Shape.knows_of_mem {shape : Shape} {held : String → Option Value} {name : String}
    (h : name ∈ shape.names) : ∃ content, shape.Knows held name content := by
  obtain ⟨⟨known, content⟩, hmem, rfl⟩ := List.mem_map.mp h
  exact ⟨content, .field hmem⟩

theorem Shape.Shows.depth_lt {shape : Shape} {v x : Value} {held : String → Option Value}
    (h : shape.Shows v held) {name : String} (hheld : held name = some x) : x.depth < v.depth := by
  cases h with
  | object members => exact Json.depth_lt_of_mem_members (Json.mem_of_member? hheld)
  | array items listed short => exact Json.depth_lt_of_mem_items (List.mem_of_getElem? hheld)

section

variable {ε : Type} (source : Source ε)

theorem word_eq_ok_iff {n : Json.Number} {w : UInt32} :
    word n = .ok w ↔ n = .whole false w.toNat := by
  unfold word
  split
  · rename_i magnitude
    by_cases hsize : magnitude < UInt32.size
    · rw [if_pos hsize]
      constructor
      · intro h
        cases h
        simp [Nat.mod_eq_of_lt hsize]
      · intro h
        cases h
        simp
    · rw [if_neg hsize]
      have hword : w.toNat < UInt32.size := w.toNat_lt
      constructor
      · split <;> nofun
      · intro h
        cases h
        exact absurd hword hsize
  · split <;> simp
  · simp

theorem string_eq_ok_iff {v : Value} {s : String} :
    string source (ofValue v) = .ok s ↔ IsString v s := by
  cases v with
  | flaw cause => cases cause
  | _ => simp [ofValue, string]

theorem bool_eq_ok_iff {v : Value} {b : Bool} :
    bool source (ofValue v) = .ok b ↔ IsBool v b := by
  cases v with
  | flaw cause => cases cause
  | _ => simp [ofValue, bool]

theorem number_eq_ok_iff {v : Value} {w : UInt32} :
    number source (ofValue v) = .ok w ↔ IsWord v w := by
  cases v with
  | flaw cause => cases cause
  | number n => simp [ofValue, number, word_eq_ok_iff]
  | _ => simp [ofValue, number]

theorem ofValue_eq_null_iff {v : Value} : (ofValue v : Json ε) = .null ↔ v = .null := by
  cases v with
  | flaw cause => cases cause
  | _ => simp [ofValue]

section

variable {α : Type} {P : Value → α → Prop} {decode : Json ε → Except LoadError α}

theorem nullable_eq_ok_iff {v : Value} (h : ∀ a, decode (ofValue v) = .ok a ↔ P v a)
    {b : Option α} :
    nullable decode (ofValue v) = .ok b ↔
      (v = .null ∧ b = none) ∨ (v ≠ .null ∧ ∃ a, P v a ∧ b = some a) := by
  by_cases hnull : v = .null
  · subst hnull
    simp [ofValue, nullable, eq_comm]
  · have hdecode : nullable decode (ofValue v) = some <$> decode (ofValue v) := by
      unfold nullable
      split
      · rename_i heq
        exact absurd (ofValue_eq_null_iff.mp heq) hnull
      · rfl
    rw [hdecode]
    simp only [hnull, false_and, false_or, ne_eq, not_false_eq_true, true_and, ← h]
    cases decode (ofValue v) with
    | ok a => simp [Functor.map, Except.map, eq_comm]
    | error e => simp [Functor.map, Except.map]

theorem mapM_eq_ok_iff {items : List Value}
    (h : ∀ item ∈ items, ∀ a, decode (ofValue item) = .ok a ↔ P item a) {values : List α} :
    (ofItems items).mapM decode = .ok values ↔ List.Forall₂ P items values := by
  induction items generalizing values with
  | nil =>
    rw [ofItems, List.mapM_nil, List.forall₂_nil_left_iff]
    simp [pure, Except.pure, eq_comm]
  | cons item rest ih =>
    have hitem := h item List.mem_cons_self
    have hrest := @ih fun other hother => h other (List.mem_cons_of_mem _ hother)
    rw [ofItems, List.mapM_cons, List.forall₂_cons_left_iff]
    simp only [← hitem, ← hrest]
    cases decode (ofValue item) with
    | error e => simp [bind, Except.bind]
    | ok a =>
      cases (ofItems rest).mapM decode with
      | error e => simp [bind, Except.bind]
      | ok as => simp [bind, Except.bind, pure, Except.pure, eq_comm]

theorem list_eq_ok_iff {v : Value}
    (h : ∀ items, v = .array items → ∀ item ∈ items, ∀ a,
      decode (ofValue item) = .ok a ↔ P item a) {values : List α} :
    list source decode (ofValue v) = .ok values ↔ IsList P v values := by
  cases v with
  | flaw cause => cases cause
  | array items =>
    rw [ofValue, list, mapM_eq_ok_iff (h items rfl)]
    constructor
    · exact .mk
    · rintro ⟨heach⟩
      exact heach
  | _ =>
    constructor
    · nofun
    · nofun

end

section

variable {source} (hpass : ∀ v, source.pass (ofValue v) = .ok ())
include hpass

theorem record_eq_ok_iff {α : Type} {shape : Shape} (hlisted : shape ≠ .node) {v : Value}
    (honce : Throughout Once shape v) {decode : Record (Json ε) → Reading α}
    {Holds : (String → Option Value) → α → Prop}
    (hdecode : ∀ r held, shape.Shows v held →
      (∀ name ∈ shape.names, r.Finds name ((held name).map ofValue)) →
      ∀ a, decode r = .done a ↔ Holds held a) {a : α} :
    record source shape.names decode (ofValue v) = .ok a ↔
      ∃ held, shape.Shows v held ∧ Holds held a := by
  cases v with
  | flaw cause => cases cause
  | object members =>
    have hothers : (Record.named (ofMembers members)).others shape.names source.pass
        source.surplus = .done () := by
      apply Record.others_named
      intro key value hmem
      rw [Json.ofMembers_eq_map] at hmem
      obtain ⟨⟨name, given⟩, -, heq⟩ := List.mem_map.mp hmem
      cases heq
      exact hpass given
    have hfinds : ∀ name ∈ shape.names, (Record.named (ofMembers members)).Finds name
        ((member? name members).map (ofValue : Value → Json ε)) := by
      intro name hname
      obtain ⟨content, hknown⟩ := Shape.knows_of_mem hname
      have hvalues := (honce shape members .refl name content hknown).valuesOf_eq
      change Json.valuesOf name (ofMembers members) = _
      rw [Json.ofMembers_eq_map, Json.valuesOf_map, hvalues, Option.toList_map]
    have hholds := hdecode (.named (ofMembers members)) _ (.object members) hfinds a
    change (decode (.named (ofMembers members)) <* _).toExcept = .ok a ↔ _
    rw [Reading.toExcept_eq_ok_iff, Reading.seqLeft_eq_done_iff, hholds, hothers]
    constructor
    · rintro ⟨h, -⟩
      exact ⟨_, .object members, h⟩
    · rintro ⟨held, hshows, h⟩
      cases hshows
      exact ⟨h, (), rfl⟩
  | array items =>
    have hlength : (ofItems items : List (Json ε)).length = items.length := by
      rw [Json.ofItems_eq_map, List.length_map]
    have hfinds : ∀ name ∈ shape.names, (Record.listed shape.names (ofItems items)).Finds name
        (items[shape.names.idxOf name]?.map (ofValue : Value → Json ε)) := by
      intro name hname
      change (ofItems items)[shape.names.idxOf name]? = _
      rw [Json.ofItems_eq_map, List.getElem?_map]
    change (decode (.listed shape.names (ofItems items)) <* _).toExcept = .ok a ↔ _
    rw [Reading.toExcept_eq_ok_iff, Reading.seqLeft_eq_done_iff]
    constructor
    · rintro ⟨h, u, hothers⟩
      rw [Record.others_listed, hlength] at hothers
      have hshows : shape.Shows (.array items) _ := .array items hlisted hothers
      exact ⟨_, hshows, (hdecode _ _ hshows hfinds a).mp h⟩
    · rintro ⟨held, hshows, h⟩
      cases hshows with
      | array _ _ hshort =>
        refine ⟨(hdecode _ _ (.array items hlisted hshort) hfinds a).mpr h, (), ?_⟩
        rw [Record.others_listed, hlength]
        exact hshort
  | _ =>
    constructor
    · nofun
    · rintro ⟨held, hshows, -⟩
      cases hshows

theorem position_eq_ok_iff {v : Value} (honce : Throughout Once .position v) {p : Position} :
    position source (ofValue v) = .ok p ↔ IsPosition v p := by
  apply record_eq_ok_iff hpass (by decide) honce
  intro r held hshows hfinds p
  have hword : ∀ name ∈ Shape.position.names, ∀ w,
      r.required name (number source) = .done w ↔ Required IsWord (held name) w :=
    fun name hname w => (hfinds name hname).required fun x _ w => number_eq_ok_iff source
  rw [Reading.map₃_eq_done_iff]
  simp only [hword "offset" (by decide), hword "line" (by decide), hword "column" (by decide)]
  constructor
  · rintro ⟨offset, line, column, hoffset, hline, hcolumn, rfl⟩
    exact ⟨hoffset, hline, hcolumn⟩
  · rintro ⟨hoffset, hline, hcolumn⟩
    exact ⟨_, _, _, hoffset, hline, hcolumn, rfl⟩

theorem region_eq_ok_iff {v : Value} (honce : Throughout Once .region v) {r : Region} :
    region source (ofValue v) = .ok r ↔ IsRegion v r := by
  apply record_eq_ok_iff hpass (by decide) honce
  intro r held hshows hfinds region
  have hfields : ∀ name ∈ Shape.region.names, (name, .one .position) ∈ Shape.region.fields := by
    decide
  have hposition : ∀ name ∈ Shape.region.names, ∀ p,
      r.required name (position source) = .done p ↔ Required IsPosition (held name) p := by
    intro name hname p
    apply (hfinds name hname).required
    intro x hheld p
    exact position_eq_ok_iff hpass (honce.one hshows (.field (hfields name hname)) hheld)
  rw [Reading.map₂_eq_done_iff]
  simp only [hposition "begin" (by decide), hposition "end" (by decide)]
  constructor
  · rintro ⟨start, stop, hstart, hstop, rfl⟩
    exact ⟨hstart, hstop⟩
  · rintro ⟨hstart, hstop⟩
    exact ⟨_, _, hstart, hstop, rfl⟩

theorem regionField_eq_done_iff {r : Record (Json ε)} {found : Option Value}
    (hfinds : r.Finds "region" (found.map ofValue))
    (honce : ∀ x, found = some x → Throughout Once .region x) {region : Option Region} :
    regionField source r = .done region ↔ Nullable IsRegion found region := by
  unfold regionField
  rw [Reading.map_eq_done_iff]
  apply hfinds.nullable
  intro x hx b
  exact nullable_eq_ok_iff fun a => region_eq_ok_iff hpass (honce x hx)

end

theorem codeFields_eq_done_iff {γ : Type} {r : Record γ} {held : String → Option Value}
    {into : Value → γ} {text : γ → Except LoadError String}
    {text? : γ → Except LoadError (Option String)}
    (htext : ∀ x s, text (into x) = .ok s ↔ IsString x s)
    (htext? : ∀ x b, text? (into x) = .ok b ↔
      (x = .null ∧ b = none) ∨ (x ≠ .null ∧ ∃ s, IsString x s ∧ b = some s))
    (hcode : r.Finds "code" ((held "code").map into))
    (hspace : r.Finds "namespace" ((held "namespace").map into)) {code : UserCode} :
    codeFields text text? r = .done code ↔ HoldsCode held code := by
  unfold codeFields
  rw [Reading.map₂_eq_done_iff]
  have hbody := @Record.Finds.required _ _ r "code" (held "code") into hcode text IsString
    fun x _ => htext x
  have hgiven := @Record.Finds.nullable _ _ r "namespace" (held "namespace") into hspace text?
    IsString fun x _ => htext? x
  simp only [hbody]
  constructor
  · rintro ⟨body, space, h, hoptional, rfl⟩
    exact ⟨h, space.join, hgiven.mp ⟨space, hoptional, rfl⟩, rfl⟩
  · rintro ⟨h, given, hnullable, hdefault⟩
    obtain ⟨space, hoptional, rfl⟩ := hgiven.mpr hnullable
    refine ⟨_, space, h, hoptional, ?_⟩
    rw [← hdefault]

theorem initializer_eq_ok_iff {source : Source ε} (hpass : ∀ v, source.pass (ofValue v) = .ok ())
    {v : Value} (honce : Throughout Once .initializer v) {code : UserCode} :
    initializer source (ofValue v) = .ok code ↔ IsInitializer v code := by
  apply record_eq_ok_iff hpass (by decide) honce
  intro r held hshows hfinds code
  apply codeFields_eq_done_iff
  · exact fun x s => string_eq_ok_iff source
  · exact fun x b => nullable_eq_ok_iff fun s => string_eq_ok_iff source
  · exact hfinds "code" (by decide)
  · exact hfinds "namespace" (by decide)

end

end Backtrack.Format
