import Backtrack.Json.Number

/-!
# JSON trees

A tree is read from a text or built in memory. What a text leaves open is part of the tree read
from it: where reading had to stop, or where a token is well formed but names no value, there
stands a flaw. A tree over `Empty` has none and is a plain JSON value.
-/

namespace Backtrack

set_option autoImplicit false

/-- A JSON tree whose flaws are drawn from `ε`. Members keep their order and may repeat keys. -/
inductive Json (ε : Type) where
  | null
  | bool (value : Bool)
  | number (value : Json.Number)
  | string (value : String)
  | array (items : List (Json ε))
  | object (members : List (String × Json ε))
  | flaw (cause : ε)

namespace Json

/-- A plain JSON value. -/
abbrev Value := Json Empty

instance {ε : Type} : Inhabited (Json ε) := ⟨.null⟩

/-- What can be wrong at a place in a text. -/
inductive Flaw where
  /-- The text is malformed here or ends here, and nothing beyond it was read. -/
  | cut
  /-- A well-formed token without a value: a string with half of a surrogate pair, or a number
  beyond double precision. -/
  | noValue
  /-- The same for the key of a member, whose value stands under an empty key. -/
  | noKey
  deriving DecidableEq, Repr

section

variable {ε : Type}

mutual

/-- How deep arrays and objects nest; a value that is neither has depth zero. -/
def depth : Json ε → Nat
  | .array items => itemsDepth items + 1
  | .object members => membersDepth members + 1
  | _ => 0

def itemsDepth : List (Json ε) → Nat
  | [] => 0
  | item :: rest => max (depth item) (itemsDepth rest)

def membersDepth : List (String × Json ε) → Nat
  | [] => 0
  | (_, value) :: rest => max (depth value) (membersDepth rest)

end

end

mutual

/-- The plain value of a tree without flaws. -/
def value? : Json Flaw → Option Value
  | .null => some .null
  | .bool b => some (.bool b)
  | .number n => some (.number n)
  | .string s => some (.string s)
  | .array items => (itemValues? items).map .array
  | .object members => (memberValues? members).map .object
  | .flaw _ => none

def itemValues? : List (Json Flaw) → Option (List Value)
  | [] => some []
  | item :: rest => do return (← value? item) :: (← itemValues? rest)

def memberValues? : List (String × Json Flaw) → Option (List (String × Value))
  | [] => some []
  | (key, item) :: rest => do return (key, ← value? item) :: (← memberValues? rest)

end

mutual

/-- A plain value nests as deep as the tree it was taken from. -/
theorem depth_of_value? : ∀ {tree : Json Flaw} {value : Value},
    tree.value? = some value → value.depth = tree.depth
  | .null, _, h | .bool _, _, h | .number _, _, h | .string _, _, h => by
    cases h; rfl
  | .array items, _, h => by
    obtain ⟨values, hvalues, rfl⟩ := Option.map_eq_some_iff.mp h
    simp only [depth, itemsDepth_of_itemValues? hvalues]
  | .object members, _, h => by
    obtain ⟨values, hvalues, rfl⟩ := Option.map_eq_some_iff.mp h
    simp only [depth, membersDepth_of_memberValues? hvalues]
  | .flaw _, _, h => by cases h

theorem itemsDepth_of_itemValues? : ∀ {items : List (Json Flaw)} {values : List Value},
    itemValues? items = some values → itemsDepth values = itemsDepth items
  | [], _, h => by cases h; rfl
  | item :: rest, _, h => by
    simp only [itemValues?, Option.bind_eq_bind, Option.bind_eq_some_iff, Option.pure_def,
      Option.some.injEq] at h
    obtain ⟨value, hvalue, values, hvalues, rfl⟩ := h
    simp only [itemsDepth, depth_of_value? hvalue, itemsDepth_of_itemValues? hvalues]

theorem membersDepth_of_memberValues? :
    ∀ {members : List (String × Json Flaw)} {values : List (String × Value)},
      memberValues? members = some values → membersDepth values = membersDepth members
  | [], _, h => by cases h; rfl
  | (key, item) :: rest, _, h => by
    simp only [memberValues?, Option.bind_eq_bind, Option.bind_eq_some_iff, Option.pure_def,
      Option.some.injEq] at h
    obtain ⟨value, hvalue, values, hvalues, rfl⟩ := h
    simp only [membersDepth, depth_of_value? hvalue, membersDepth_of_memberValues? hvalues]

end

mutual

/-- Reading ran through the whole tree: it may hold tokens without a value, but no cut. -/
def isClosed : Json Flaw → Bool
  | .array items => itemsClosed items
  | .object members => membersClosed members
  | .flaw .cut => false
  | _ => true

def itemsClosed : List (Json Flaw) → Bool
  | [] => true
  | item :: rest => isClosed item && itemsClosed rest

def membersClosed : List (String × Json Flaw) → Bool
  | [] => true
  | (_, item) :: rest => isClosed item && membersClosed rest

end

/-- Places a member among members sorted by key; a later member of the same key stays. -/
def insertMember (key : String) (value : Value) :
    List (String × Value) → List (String × Value)
  | [] => [(key, value)]
  | (other, kept) :: rest =>
    if key < other then (key, value) :: (other, kept) :: rest
    else if key = other then (other, kept) :: rest
    else (other, kept) :: insertMember key value rest

mutual

/-- The same value with every object's members sorted by key, the last of equal keys kept. -/
def canonical : Value → Value
  | .array items => .array (canonicalItems items)
  | .object members => .object (canonicalMembers members)
  | value => value

def canonicalItems : List Value → List Value
  | [] => []
  | item :: rest => canonical item :: canonicalItems rest

def canonicalMembers : List (String × Value) → List (String × Value)
  | [] => []
  | (key, value) :: rest => insertMember key (canonical value) (canonicalMembers rest)

end

end Json

end Backtrack
