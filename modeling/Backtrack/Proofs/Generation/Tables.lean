import Backtrack.Generate.Basic

/-!
# Tables that only grow

A session grows while rules are generated. What it has numbered keeps its number in every later
session, so a number may as well be read off the tables at the end.
-/

namespace Backtrack

set_option autoImplicit false

namespace Interner

variable {α : Type} [DecidableEq α]

theorem idxOf_of_isPrefix {small large : List α} (h : small <+: large) {a : α} (ha : a ∈ small) :
    large.idxOf a = small.idxOf a := by
  obtain ⟨rest, rfl⟩ := h
  rw [List.idxOf_append, if_pos ha]

/-- The number given to a value is its place in every table that goes on from there. -/
theorem number_of_isPrefix (table : Interner α) (a : α) {large : List α}
    (h : (table.add a).toList <+: large) :
    (table.intern a).1 = large.idxOf a ∧ (table.intern a).1 < large.length := by
  have hn : large.idxOf a = (table.intern a).1 := idxOf_of_isPrefix h (mem_add table a)
  have hm : a ∈ large := h.subset (mem_add table a)
  exact ⟨hn.symm, hn ▸ List.idxOf_lt_length_of_mem hm⟩

/-- Where a value already has its number, nothing is new. -/
theorem intern_of_isPrefix (table : Interner α) (a : α) {later : Interner α}
    (h : (table.add a).toList <+: later.toList) :
    later.intern a = ((table.intern a).1, later) := by
  have hmem : a ∈ later.toList := h.subset (mem_add table a)
  have hnumber := (number_of_isPrefix table a h).1
  rw [hnumber]
  unfold intern
  rw [add_of_mem hmem]

end Interner

/-- A key that is set keeps its place, or comes last. -/
theorem OrderedMap.keys_isPrefix_insert {α β : Type} [DecidableEq α] (map : OrderedMap α β) (key : α)
    (value : β) : map.keys <+: (map.insert key value).keys := by
  rw [keys_insert]
  split
  · exact List.prefix_rfl
  · exact List.prefix_append _ _

namespace Session

def literals (session : Session) : List String := session.constants.literals.values.toList

def classes (session : Session) : List String := session.constants.classes.values.toList

def descriptions (session : Session) : List String := session.constants.expected.values.toList

def predicates (session : Session) : List UserFunction := session.user.predicates.functions.toList

def actions (session : Session) : List UserFunction := session.user.actions.functions.toList

/-- Every table goes on from the table it was. -/
structure Extends (small large : Session) : Prop where
  literals : small.literals <+: large.literals
  classes : small.classes <+: large.classes
  descriptions : small.descriptions <+: large.descriptions
  predicates : small.predicates <+: large.predicates
  actions : small.actions <+: large.actions

namespace Extends

theorem refl (session : Session) : Extends session session :=
  ⟨List.prefix_rfl, List.prefix_rfl, List.prefix_rfl, List.prefix_rfl, List.prefix_rfl⟩

theorem trans {a b c : Session} (hab : Extends a b) (hbc : Extends b c) : Extends a c :=
  ⟨hab.literals.trans hbc.literals, hab.classes.trans hbc.classes,
    hab.descriptions.trans hbc.descriptions, hab.predicates.trans hbc.predicates,
    hab.actions.trans hbc.actions⟩

end Extends

/-- As `Extends`, and the namespaces also go on in the order they had. -/
structure Continues (small large : Session) : Prop extends Extends small large where
  spaces : small.user.spaces.keys <+: large.user.spaces.keys

namespace Continues

theorem refl (session : Session) : Continues session session := ⟨.refl session, List.prefix_rfl⟩

theorem trans {a b c : Session} (hab : Continues a b) (hbc : Continues b c) : Continues a c :=
  ⟨hab.toExtends.trans hbc.toExtends, hab.spaces.trans hbc.spaces⟩

end Continues

/-- The function that user code becomes where some labels are in sight. -/
def functionOf (code : UserCode) (labels : List String) : UserFunction :=
  ⟨code.space, labels, code.body⟩

def literalNumber (session : Session) (bytes : Bytes) : Nat :=
  session.literals.idxOf (Constants.literal bytes)

def classNumber (session : Session) (singles : Bytes) (ranges : List (UInt8 × UInt8)) : Nat :=
  session.classes.idxOf (Constants.charClass singles ranges)

def descriptionNumber (session : Session) (kind : ExpectedKind) (description : String) : Nat :=
  session.descriptions.idxOf (Constants.expected kind (Bytes.ofString description))

def predicateCall (session : Session) (code : UserCode) (env : Env) : Call :=
  ⟨session.predicates.idxOf (functionOf code env.keys), env.values⟩

def actionCall (session : Session) (code : UserCode) (env : Env) : Call :=
  ⟨session.actions.idxOf (functionOf code env.keys), env.values⟩

end Session

end Backtrack
