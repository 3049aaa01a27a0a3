import Mathlib.Data.List.Nodup
import Mathlib.Data.List.Perm.Basic
import Mathlib.Data.List.Range
import Backtrack.Parser.Files
import Backtrack.Proofs.Generation.Growth
import Backtrack.Proofs.Strings.Scanning

/-!
# The namespaces of user code

A namespace is known from its initializer or from the first function in it, and is known once. So
the functions of the known namespaces are all functions, each of them in one place.
-/

namespace Backtrack

set_option autoImplicit false

namespace Session

/-- The known namespaces are those given and those of user functions, each of them once. -/
structure Registered (given : List String) (session : Session) : Prop where
  nodup : session.user.spaces.keys.Nodup
  mem_iff : ∀ space, space ∈ session.user.spaces.keys ↔
    space ∈ given ∨ ∃ function ∈ session.predicates ++ session.actions, function.space = space

/-- One more function, in a namespace that is made known with it. -/
theorem Registered.touch {given : List String} {a b : Session}
    (ha : a.Registered given) (function : UserFunction)
    (hspaces : b.user.spaces = a.user.spaces.insertIfNew function.space none)
    (hfunctions : ∀ f, f ∈ b.predicates ++ b.actions ↔
      f ∈ a.predicates ++ a.actions ∨ f = function) : b.Registered given := by
  refine ⟨?_, ?_⟩
  · rw [hspaces]
    exact OrderedMap.nodup_keys_insertIfNew ha.nodup _ _
  · intro space
    rw [hspaces, OrderedMap.mem_keys_insertIfNew, ha.mem_iff]
    constructor
    · rintro ((hgiven | ⟨f, hf, he⟩) | rfl)
      · exact Or.inl hgiven
      · exact Or.inr ⟨f, (hfunctions f).mpr (Or.inl hf), he⟩
      · exact Or.inr ⟨function, (hfunctions function).mpr (Or.inr rfl), rfl⟩
    · rintro (hgiven | ⟨f, hf, he⟩)
      · exact Or.inl (Or.inl hgiven)
      · rcases (hfunctions f).mp hf with hf | rfl
        · exact Or.inl (Or.inr ⟨f, hf, he⟩)
        · exact Or.inr he.symm

theorem Step.registered {given : List String} {a b : Session} (h : a.Step b)
    (ha : a.Registered given) : b.Registered given := by
  cases h with
  | warns diagnostic => exact ⟨ha.nodup, ha.mem_iff⟩
  | adds h =>
    cases h with
    | nothing => exact ha
    | literal bytes => exact ⟨ha.nodup, ha.mem_iff⟩
    | charClass singles ranges => exact ⟨ha.nodup, ha.mem_iff⟩
    | expected kind description => exact ⟨ha.nodup, ha.mem_iff⟩
    | predicate code params =>
      refine ha.touch ⟨code.space, params, code.body⟩ rfl fun f => ?_
      have hadd : f ∈ (a.user.addPredicate code params).2.predicates.functions.toList ↔
          f ∈ a.predicates ∨ f = ⟨code.space, params, code.body⟩ := Interner.mem_add_iff
      simp only [List.mem_append, predicates, actions] at hadd ⊢
      rw [hadd, or_right_comm]
      rfl
    | action code params =>
      refine ha.touch ⟨code.space, params, code.body⟩ rfl fun f => ?_
      have hadd : f ∈ (a.user.addAction code params).2.actions.functions.toList ↔
          f ∈ a.actions ∨ f = ⟨code.space, params, code.body⟩ := Interner.mem_add_iff
      simp only [List.mem_append, predicates, actions] at hadd ⊢
      rw [hadd, or_assoc]
      rfl

theorem registered_ofInitializers (initializers : List UserCode) :
    (ofInitializers initializers).Registered (initializers.map UserCode.space) := by
  have h : ∀ (given : List String) (session : Session), session.Registered given →
      (initializers.foldl (fun session code => session.addInitializer code.space code.body)
        session).Registered (given ++ initializers.map UserCode.space) := by
    induction initializers with
    | nil =>
      intro given session h
      rw [List.map_nil, List.append_nil]
      exact h
    | cons first rest ih =>
      intro given session h
      have hfirst : (session.addInitializer first.space first.body).Registered
          (given ++ [first.space]) := by
        refine ⟨OrderedMap.nodup_keys_insert h.nodup _ _, ?_⟩
        intro space
        have hkeys : space ∈ (session.addInitializer first.space first.body).user.spaces.keys ↔
            space ∈ session.user.spaces.keys ∨ space = first.space := OrderedMap.mem_keys_insert
        rw [hkeys, h.mem_iff, List.mem_append, List.mem_singleton, or_right_comm]
        rfl
      have hrest := ih _ _ hfirst
      rw [List.append_assoc] at hrest
      exact hrest
  exact h [] {} ⟨.nil, fun space => ⟨nofun, nofun⟩⟩

end Session

/-- Items that are put under their keys, with no key twice, are all there. -/
theorem perm_grouped {α κ : Type} [DecidableEq κ] (key : α → κ) {keys : List κ} (hn : keys.Nodup)
    {items : List α} (hk : ∀ item ∈ items, key item ∈ keys) :
    (keys.flatMap fun k => items.filter (key · = k)).Perm items := by
  induction keys generalizing items with
  | nil =>
    rw [List.eq_nil_iff_forall_not_mem.mpr fun item hitem => absurd (hk item hitem) List.not_mem_nil]
    rfl
  | cons first rest ih =>
    obtain ⟨hfirst, hrest⟩ := List.nodup_cons.mp hn
    have hothers : ∀ item ∈ items.filter (fun item => !decide (key item = first)), key item ∈ rest := by
      intro item hitem
      obtain ⟨hin, hne⟩ := List.mem_filter.mp hitem
      rcases List.mem_cons.mp (hk item hin) with he | hin
      · simp [he] at hne
      · exact hin
    have hsame : (rest.flatMap fun k => items.filter (key · = k)) =
        rest.flatMap fun k => (items.filter (fun item => !decide (key item = first))).filter (key · = k) := by
      apply List.flatMap_congr
      intro k hin
      rw [List.filter_filter]
      apply List.filter_congr
      intro item _
      by_cases he : key item = k
      · have hne : ¬ key item = first := by
          rintro rfl
          exact hfirst (he ▸ hin)
        simp [he, he ▸ hne]
      · simp [he]
    rw [List.flatMap_cons, hsame]
    exact ((ih hrest hothers).append_left _).trans (List.filter_append_perm _ _)

namespace FunctionTable

variable (table : FunctionTable)

/-- A function with its number as a definition. -/
def definition (entry : UserFunction × Nat) : String :=
  table.signature entry.2 entry.1 ++ " \x7b" ++ entry.1.body ++ "\x7d"

def declaration (entry : UserFunction × Nat) : String := table.signature entry.2 entry.1 ++ ";"

theorem select_none : table.select none = table.functions.toList.zipIdx :=
  List.filter_eq_self.mpr fun _ _ => rfl

theorem select_some (space : String) :
    table.select (some space) = (table.select none).filter (·.1.space = space) := by
  rw [select_none]
  rfl

theorem definitions_eq (space? : Option String) :
    table.definitions space? = (table.select space?).map table.definition := rfl

theorem mem_select_some {entry : UserFunction × Nat} {space : String} :
    entry ∈ table.select (some space) ↔ entry ∈ table.select none ∧ entry.1.space = space := by
  rw [select_some, List.mem_filter, decide_eq_true_eq]

theorem definition_toList (entry : UserFunction × Nat) :
    ∃ rest, (table.definition entry).toList = (table.returns ++ " " ++ table.stem).toList ++
      ((toString entry.2).toList ++ '(' :: rest) := by
  refine ⟨("struct Context* context" ++ String.join (entry.1.params.map (", struct Result* " ++ ·)) ++
    ")" ++ " \x7b" ++ entry.1.body ++ "\x7d").toList, ?_⟩
  simp only [definition, signature, String.toList_append, List.append_assoc]
  rfl

/-- The number in a definition tells the function. -/
theorem definition_inj {entry other : UserFunction × Nat} (he : entry ∈ table.select none)
    (ho : other ∈ table.select none) (h : table.definition entry = table.definition other) :
    entry = other := by
  obtain ⟨left, hl⟩ := table.definition_toList entry
  obtain ⟨right, hr⟩ := table.definition_toList other
  rw [← h, hl] at hr
  have hnumber : entry.2 = other.2 := (decimal_inj rfl (List.append_cancel_left hr)).1
  rw [select_none] at he ho
  have hentry := List.mem_zipIdx_iff_getElem?.mp he
  have hother := List.mem_zipIdx_iff_getElem?.mp ho
  rw [hnumber, hother] at hentry
  exact Prod.ext (Option.some.inj hentry).symm hnumber

theorem nodup_definitions : (table.definitions none).Nodup := by
  rw [definitions_eq]
  apply List.Nodup.map_on
  · exact fun entry he other ho h => table.definition_inj he ho h
  · rw [select_none]
    apply List.Nodup.of_map Prod.snd
    rw [List.zipIdx_map_snd]
    exact List.nodup_range'

end FunctionTable

end Backtrack
