import Mathlib.Data.List.Nodup
import Mathlib.Data.List.Perm.Basic
import Mathlib.Data.List.Range

/-!
# Owned values

The values that a run creates, by the order in which they are created. A value can be given to
another one, which owns it from then on, and is freed with everything it owns. The two sentinels are
not values: to free them does nothing.
-/

namespace Backtrack

set_option autoImplicit false

/-- What a result slot points to: a sentinel, or a value by its number. -/
inductive Ref where
  | failed
  | nil
  | value (id : Nat)
  deriving DecidableEq

def Ref.numbers : Ref → List Nat
  | .value id => [id]
  | .failed | .nil => []

structure Heap where
  /-- What each value owns, in the order of their numbers. -/
  cells : List (List Ref) := []
  /-- The values that were given to an owner. -/
  given : List Nat := []
  /-- The values that were freed, each as often as it was. -/
  freed : List Nat := []
  /-- The values that were handed over although they had an owner or were freed. -/
  misused : List Nat := []

namespace Heap

/-- The values that are pointed to, each followed by those it owns, down to a depth. -/
def reach (cells : List (List Ref)) : Nat → List Ref → List Nat
  | 0, _ => []
  | depth + 1, refs => refs.flatMap fun
    | .value id => id :: reach cells depth (cells.getD id [])
    | .failed | .nil => []

/-- A value with everything it owns. No chain of owners has more values than there are. -/
def owned (heap : Heap) (ref : Ref) : List Nat := reach heap.cells heap.cells.length [ref]

/-- Notes a value that is handed to the runtime although it is freed or has an owner. -/
def check (heap : Heap) : Ref → Heap
  | .value id =>
    if id ∈ heap.freed ∨ id ∈ heap.given then { heap with misused := heap.misused ++ [id] }
    else heap
  | .failed | .nil => heap

/-- A new value, which owns nothing yet and has the next number. -/
def create (heap : Heap) : Heap := { heap with cells := heap.cells ++ [[]] }

/-- The next value that is created. -/
def next (heap : Heap) : Ref := .value heap.cells.length

def release (heap : Heap) (ref : Ref) : Heap :=
  let heap := heap.check ref
  { heap with freed := heap.freed ++ heap.owned ref }

/-- Gives an item to an owner. -/
def give (heap : Heap) (owner item : Ref) : Heap :=
  let heap := heap.check item
  match owner with
  | .value id =>
    { heap with
      cells := heap.cells.modify id (· ++ [item])
      given := heap.given ++ item.numbers }
  | .failed | .nil => heap

/-- Puts an item into an array. -/
def append (heap : Heap) (array item : Ref) : Heap := (heap.check array).give array item

/-- A new value that owns the parts. -/
def wrap (heap : Heap) (parts : List Ref) : Heap :=
  parts.foldl (fun after part => after.give heap.next part) heap.create

/-- The references are the roots of a forest with these values, in order. -/
inductive Holds (cells : List (List Ref)) : List Ref → List Nat → Prop where
  | empty : Holds cells [] []
  | failed {refs : List Ref} {ids : List Nat} (h : Holds cells refs ids) :
      Holds cells (.failed :: refs) ids
  | nil {refs : List Ref} {ids : List Nat} (h : Holds cells refs ids) :
      Holds cells (.nil :: refs) ids
  | value {id : Nat} {parts refs : List Ref} {inner ids : List Nat}
      (hcell : cells[id]? = some parts) (hparts : Holds cells parts inner)
      (h : Holds cells refs ids) : Holds cells (.value id :: refs) (id :: (inner ++ ids))

namespace Holds

variable {cells : List (List Ref)} {refs : List Ref} {ids : List Nat}

theorem mem (h : Holds cells refs ids) {id : Nat} (hid : .value id ∈ refs) : id ∈ ids := by
  induction h with
  | empty => cases hid
  | failed _ ih =>
    rcases List.mem_cons.mp hid with he | hid
    · cases he
    · exact ih hid
  | nil _ ih =>
    rcases List.mem_cons.mp hid with he | hid
    · cases he
    · exact ih hid
  | value _ _ _ _ ih =>
    rcases List.mem_cons.mp hid with he | hid
    · cases he
      exact List.mem_cons_self
    · exact List.mem_cons_of_mem _ (List.mem_append_right _ (ih hid))

theorem append (h : Holds cells refs ids) {others : List Ref} {more : List Nat}
    (h' : Holds cells others more) : Holds cells (refs ++ others) (ids ++ more) := by
  induction h with
  | empty => exact h'
  | failed _ ih => exact ih.failed
  | nil _ ih => exact ih.nil
  | value hcell hparts _ _ ih =>
    have hids := Holds.value hcell hparts ih
    rw [← List.append_assoc] at hids
    exact hids

/-- What one root holds, and what the others do. -/
theorem split {ref : Ref} (h : Holds cells (ref :: refs) ids) :
    ∃ first rest, ids = first ++ rest ∧ Holds cells [ref] first ∧ Holds cells refs rest := by
  cases h with
  | failed h => exact ⟨[], _, rfl, .failed .empty, h⟩
  | nil h => exact ⟨[], _, rfl, .nil .empty, h⟩
  | @value id parts _ inner ids hcell hparts h =>
    refine ⟨id :: inner, ids, rfl, ?_, h⟩
    have hone := Holds.value hcell hparts .empty
    rw [List.append_nil] at hone
    exact hone

theorem cons {ref : Ref} {first rest : List Nat} (h : Holds cells [ref] first)
    (h' : Holds cells refs rest) : Holds cells (ref :: refs) (first ++ rest) := h.append h'

theorem perm {others : List Ref} (hp : refs.Perm others) :
    ∀ {ids : List Nat}, Holds cells refs ids →
      ∃ more, Holds cells others more ∧ ids.Perm more := by
  induction hp with
  | nil => exact fun h => ⟨_, h, .refl _⟩
  | cons ref _ ih =>
    intro ids h
    obtain ⟨first, rest, rfl, hfirst, hrest⟩ := h.split
    obtain ⟨more, hmore, hp⟩ := ih hrest
    exact ⟨first ++ more, hfirst.cons hmore, hp.append_left first⟩
  | swap ref other refs =>
    intro ids h
    obtain ⟨first, rest, rfl, hfirst, hrest⟩ := h.split
    obtain ⟨second, rest, rfl, hsecond, hrest⟩ := hrest.split
    refine ⟨_, hsecond.cons (hfirst.cons hrest), ?_⟩
    rw [← List.append_assoc, ← List.append_assoc]
    exact List.perm_append_comm.append_right rest
  | trans _ _ ih ih' =>
    intro ids h
    obtain ⟨more, hmore, hp⟩ := ih h
    obtain ⟨last, hlast, hp'⟩ := ih' hmore
    exact ⟨last, hlast, hp.trans hp'⟩

/-- Cells that are not held do not matter. -/
theorem extend (h : Holds cells refs ids) (more : List (List Ref)) :
    Holds (cells ++ more) refs ids := by
  induction h with
  | empty => exact .empty
  | failed _ ih => exact ih.failed
  | nil _ ih => exact ih.nil
  | value hcell _ _ ihparts ih =>
    refine .value ?_ ihparts ih
    rw [List.getElem?_append_left (List.getElem?_eq_some_iff.mp hcell).1]
    exact hcell

theorem modify (h : Holds cells refs ids) {changed : Nat} (hc : changed ∉ ids)
    (f : List Ref → List Ref) : Holds (cells.modify changed f) refs ids := by
  induction h with
  | empty => exact .empty
  | failed _ ih => exact (ih hc).failed
  | nil _ ih => exact (ih hc).nil
  | value hcell _ _ ihparts ih =>
    obtain ⟨hne, hrest⟩ := not_or.mp fun h => hc (List.mem_cons.mpr h)
    obtain ⟨hinner, hids⟩ := not_or.mp fun h => hrest (List.mem_append.mpr h)
    refine .value ?_ (ihparts hinner) (ih hids)
    rw [List.getElem?_modify_ne _ _ hne]
    exact hcell

theorem reach_eq (h : Holds cells refs ids) {depth : Nat} (hd : ids.length ≤ depth) :
    reach cells depth refs = ids := by
  induction h generalizing depth with
  | empty =>
    cases depth with
    | zero => rfl
    | succ depth => rfl
  | failed _ ih =>
    cases depth with
    | zero => exact (List.eq_nil_of_length_eq_zero (Nat.le_zero.mp hd)).symm
    | succ depth => exact ih hd
  | nil _ ih =>
    cases depth with
    | zero => exact (List.eq_nil_of_length_eq_zero (Nat.le_zero.mp hd)).symm
    | succ depth => exact ih hd
  | @value id parts refs inner ids hcell _ _ ihparts ih =>
    rw [List.length_cons, List.length_append] at hd
    cases depth with
    | zero => omega
    | succ depth =>
      have hparts : reach cells depth parts = inner := ihparts (by omega)
      have hrest : reach cells (depth + 1) refs = ids := ih (by omega)
      have hget : cells.getD id [] = parts := by
        rw [List.getD_eq_getElem?_getD, hcell]
        rfl
      rw [← hparts, ← hrest, ← hget]
      rfl

end Holds

/-- Nothing was misused, and the roots, which have no owners, hold what is not freed: every value is
freed once or held once, and not both. -/
structure Balanced (heap : Heap) (roots : List Ref) : Prop where
  clean : heap.misused = []
  known : ∀ id ∈ heap.given, id < heap.cells.length
  loose : ∀ id, .value id ∈ roots → id ∉ heap.given
  shares : ∃ held, Holds heap.cells roots held ∧
    (heap.freed ++ held).Perm (List.range heap.cells.length)

namespace Balanced

variable {heap : Heap} {roots : List Ref} {ref : Ref}

theorem perm (h : heap.Balanced roots) {others : List Ref} (hp : roots.Perm others) :
    heap.Balanced others := by
  obtain ⟨held, hholds, hshares⟩ := h.shares
  obtain ⟨more, hmore, hperm⟩ := hholds.perm hp
  refine ⟨h.clean, h.known, ?_, more, hmore, ?_⟩
  · exact fun id hid => h.loose id (hp.mem_iff.mpr hid)
  · exact (hperm.symm.append_left _).trans hshares

/-- A sentinel holds nothing. -/
theorem cons_iff (hs : ref.numbers = []) : heap.Balanced (ref :: roots) ↔ heap.Balanced roots := by
  have hne : ∀ id, ref ≠ .value id := by
    rintro id rfl
    cases hs
  have hholds : ∀ held, Holds heap.cells (ref :: roots) held ↔ Holds heap.cells roots held := by
    intro held
    cases ref with
    | value id => exact absurd rfl (hne id)
    | failed => exact ⟨fun h => by cases h; assumption, .failed⟩
    | nil => exact ⟨fun h => by cases h; assumption, .nil⟩
  have hmem : ∀ id, .value id ∈ ref :: roots ↔ .value id ∈ roots := by
    intro id
    rw [List.mem_cons, or_iff_right (hne id).symm]
  constructor
  · rintro ⟨hc, hk, hl, held, hh, hp⟩
    exact ⟨hc, hk, fun id hid => hl id ((hmem id).mpr hid), held, (hholds held).mp hh, hp⟩
  · rintro ⟨hc, hk, hl, held, hh, hp⟩
    exact ⟨hc, hk, fun id hid => hl id ((hmem id).mp hid), held, (hholds held).mpr hh, hp⟩

theorem create (h : heap.Balanced roots) : heap.create.Balanced (heap.next :: roots) := by
  obtain ⟨held, hholds, hp⟩ := h.shares
  have hlength : heap.create.cells.length = heap.cells.length + 1 := by simp [Heap.create]
  have hnew : heap.create.cells[heap.cells.length]? = some [] := by simp [Heap.create]
  refine ⟨h.clean, ?_, ?_, heap.cells.length :: ([] ++ held), ?_, ?_⟩
  · intro id hid
    have := h.known id hid
    omega
  · intro id hid hgiven
    have hlt := h.known id hgiven
    rcases List.mem_cons.mp hid with he | hid
    · cases he
      omega
    · exact h.loose id hid hgiven
  · exact .value hnew .empty (hholds.extend _)
  · rw [hlength, List.range_succ]
    have hlast : (heap.freed ++ heap.cells.length :: held).Perm
        ((heap.freed ++ held) ++ [heap.cells.length]) := by
      apply List.perm_middle.trans
      exact (List.perm_append_singleton _ _).symm
    exact hlast.trans (hp.append_right _)

/-- A root that is handed over is in order. -/
theorem check (h : heap.Balanced (ref :: roots)) : heap.check ref = heap := by
  cases ref with
  | failed => rfl
  | nil => rfl
  | value id =>
    obtain ⟨held, hholds, hp⟩ := h.shares
    have hnodup : (heap.freed ++ held).Nodup := hp.nodup_iff.mpr List.nodup_range
    have hheld : id ∈ held := hholds.mem List.mem_cons_self
    have hgiven : id ∉ heap.given := h.loose id List.mem_cons_self
    have hfreed : id ∉ heap.freed := fun hid => (List.nodup_append.mp hnodup).2.2 id hid id hheld rfl
    exact if_neg (not_or.mpr ⟨hfreed, hgiven⟩)

/-- The values of a root, as they are found. -/
theorem owned (h : heap.Balanced (ref :: roots)) :
    ∃ rest, Holds heap.cells [ref] (heap.owned ref) ∧ Holds heap.cells roots rest ∧
      (heap.freed ++ (heap.owned ref ++ rest)).Perm (List.range heap.cells.length) := by
  obtain ⟨held, hholds, hp⟩ := h.shares
  obtain ⟨first, rest, rfl, hfirst, hrest⟩ := hholds.split
  have hlength : first.length ≤ heap.cells.length := by
    have := hp.length_eq
    rw [List.length_range, List.length_append, List.length_append] at this
    omega
  have howned : heap.owned ref = first := hfirst.reach_eq hlength
  rw [howned]
  exact ⟨rest, hfirst, hrest, hp⟩

theorem release (h : heap.Balanced (ref :: roots)) : (heap.release ref).Balanced roots := by
  obtain ⟨rest, -, hrest, hp⟩ := h.owned
  unfold Heap.release
  rw [h.check]
  refine ⟨h.clean, h.known, fun id hid => h.loose id (List.mem_cons_of_mem _ hid), rest, hrest, ?_⟩
  rw [List.append_assoc]
  exact hp

theorem give {id : Nat} (h : heap.Balanced (ref :: .value id :: roots)) :
    (heap.give (.value id) ref).Balanced (.value id :: roots) := by
  obtain ⟨held, hholds, hp⟩ := h.shares
  obtain ⟨mine, _, rfl, hmine, hothers⟩ := hholds.split
  cases hothers with
  | @value _ parts _ inner rest hcell hparts hrest =>
  have hnodup : (mine ++ id :: (inner ++ rest)).Nodup :=
    (hp.nodup_iff.mpr List.nodup_range).of_append_right
  obtain ⟨-, htail, hapart⟩ := List.nodup_append.mp hnodup
  obtain ⟨hid, -⟩ := List.nodup_cons.mp htail
  have hnumbers : ref.numbers ⊆ mine := by
    intro other hother
    cases ref with
    | failed => cases hother
    | nil => cases hother
    | value item =>
      rw [List.mem_singleton.mp hother]
      exact hmine.mem List.mem_cons_self
  unfold Heap.give
  rw [h.check]
  refine ⟨h.clean, ?_, ?_, id :: ((inner ++ mine) ++ rest), ?_, ?_⟩
  · intro other hother
    rw [List.length_modify]
    rcases List.mem_append.mp hother with hgiven | hitem
    · exact h.known other hgiven
    · have hheld : other ∈ mine := hnumbers hitem
      exact List.mem_range.mp
        (hp.mem_iff.mp (List.mem_append_right _ (List.mem_append_left _ hheld)))
  · intro other hother hgiven
    rcases List.mem_append.mp hgiven with hgiven | hitem
    · exact h.loose other (List.mem_cons_of_mem _ hother) hgiven
    · have hheld : other ∈ id :: (inner ++ rest) := (Holds.value hcell hparts hrest).mem hother
      exact hapart other (hnumbers hitem) other hheld rfl
  · refine .value ?_ (.append (hparts.modify ?_ _) (hmine.modify ?_ _)) (hrest.modify ?_ _)
    · rw [List.getElem?_modify_eq, hcell]
      rfl
    · exact fun hin => hid (List.mem_append_left _ hin)
    · exact fun hin => hapart id hin id List.mem_cons_self rfl
    · exact fun hin => hid (List.mem_append_right _ hin)
  · rw [List.length_modify]
    apply List.Perm.trans _ hp
    apply List.Perm.append_left
    apply List.Perm.trans _ List.perm_middle.symm
    apply List.Perm.cons
    rw [← List.append_assoc]
    exact List.perm_append_comm.append_right rest

/-- The array stays a root, and the item goes to it. -/
theorem append {id : Nat} (h : heap.Balanced (ref :: .value id :: roots)) :
    (heap.append (.value id) ref).Balanced (.value id :: roots) := by
  unfold Heap.append
  rw [(h.perm (.swap _ _ _)).check]
  exact h.give

theorem wrap {parts : List Ref} (h : heap.Balanced (parts ++ roots)) :
    (heap.wrap parts).Balanced (heap.next :: roots) := by
  have hfold : ∀ after : Heap, after.Balanced (heap.next :: (parts ++ roots)) →
      (parts.foldl (fun after part => after.give heap.next part) after).Balanced
        (heap.next :: roots) := by
    clear h
    induction parts with
    | nil => exact fun _ h => h
    | cons part rest ih =>
      intro after h
      exact ih _ (h.perm (.swap _ _ _)).give
  exact hfold _ h.create

end Balanced

end Heap

end Backtrack
