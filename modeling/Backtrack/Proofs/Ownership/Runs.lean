import Mathlib.Logic.Relation
import Backtrack.Proofs.Execution.Machine
import Backtrack.Proofs.Ownership.Heap

/-!
# Runs over a heap

A run of code by what it does to result slots and to owned values. Tests for failure go by what is
there. Matchers, other rules, predicates and counts may answer anything, so that no run is left out.
User code borrows its arguments: its calls change nothing.
-/

namespace Backtrack

set_option autoImplicit false

structure Store where
  results : Nat → Ref
  heap : Heap := {}

def Store.assign (s : Store) (slot : Nat) (ref : Ref) (heap : Heap) : Store :=
  ⟨fun i => if i = slot then ref else s.results i, heap⟩

/-- A result that an operand can have, with the heap after it. A call that matches has a new value
or the sentinel for no result, and one that fails has the sentinel for failures. -/
def Operand.Yields (s : Store) (ref : Ref) (heap : Heap) : Operand → Prop
  | .failed | .failure _ => ref = .failed ∧ heap = s.heap
  | .noMatch => ref = .nil ∧ heap = s.heap
  | .emptyArray | .matchedText _ => ref = s.heap.next ∧ heap = s.heap.create
  | .literal .. | .charClass .. | .anyByte | .rule _ =>
    ref.numbers = [] ∧ heap = s.heap ∨ ref = s.heap.next ∧ heap = s.heap.create
  | .wrapped _ values => ref = s.heap.next ∧ heap = s.heap.wrap (values.map s.results)

def Condition.Answers (s : Store) (answer : Bool) : Condition → Prop
  | .failed slot => answer = decide (s.results slot = .failed)
  | .matched slot => answer = decide (s.results slot ≠ .failed)
  | .full .. | .short .. | .holds _ => True

def Instruction.Runs (s : Store) (ending : Ending) (s' : Store) : Instruction → Prop
  | .assign slot operand =>
    ending = .done ∧ ∃ ref heap, operand.Yields s ref heap ∧ s' = s.assign slot ref heap
  | .free slot => ending = .done ∧ s' = { s with heap := s.heap.release (s.results slot) }
  | .append array item =>
    ending = .done ∧ s' = { s with heap := s.heap.append (s.results array) (s.results item) }
  | .leave => ending = .left ∧ s' = s
  | .save _ | .rewind _ | .mute | .unmute | .act _ => ending = .done ∧ s' = s

def Instruction.RunsAll : List Instruction → Store → Ending → Store → Prop
  | [], s, ending, s' => ending = .done ∧ s' = s
  | first :: rest, s, ending, s' =>
    (∃ m, first.Runs s .done m ∧ RunsAll rest m ending s') ∨
      ending ≠ .done ∧ first.Runs s ending s'

/-- A run of code from a store, by how it ends and with which store. -/
def Code.Runs : Code → Store → Ending → Store → Prop
  | .skip, s, ending, s' | .remark _, s, ending, s' | .blank, s, ending, s' =>
    ending = .done ∧ s' = s
  | .seq first second, s, ending, s' =>
    (∃ m, first.Runs s .done m ∧ second.Runs m ending s') ∨
      ending ≠ .done ∧ first.Runs s ending s'
  | .instr instruction, s, ending, s' => instruction.Runs s ending s'
  | .guard condition instruction, s, ending, s' =>
    condition.Answers s true ∧ instruction.Runs s ending s' ∨
      condition.Answers s false ∧ ending = .done ∧ s' = s
  | .branch condition yes no, s, ending, s' =>
    condition.Answers s true ∧ Instruction.RunsAll yes s ending s' ∨
      condition.Answers s false ∧ Instruction.RunsAll no s ending s'
  | .loop .repetition body, s, ending, s' =>
    ending = .done ∧
      ∃ m, Relation.ReflTransGen (fun s s' => body.Runs s .done s') s m ∧ body.Runs m .left s'
  | .loop .sequence body, s, ending, s' | .loop .choice body, s, ending, s' =>
    ending = .done ∧ (body.Runs s .done s' ∨ body.Runs s .left s')

namespace Store

variable {s : Store} {n : Nat}

/-- The slots below `n` hold every value that is not freed. -/
def Owns (s : Store) (n : Nat) : Prop := s.heap.Balanced ((List.range n).map s.results)

/-- The slots below `n` are as they were. -/
def Same (n : Nat) (s s' : Store) : Prop := ∀ i < n, s'.results i = s.results i

theorem Same.trans {a b c : Store} (h : Same n a b) (h' : Same n b c) : Same n a c :=
  fun i hi => (h' i hi).trans (h i hi)

theorem Same.mono {m : Nat} {a b : Store} (h : Same n a b) (hm : m ≤ n) : Same m a b :=
  fun i hi => h i (Nat.lt_of_lt_of_le hi hm)

theorem same_assign {slot : Nat} (hn : n ≤ slot) (ref : Ref) (heap : Heap) :
    Same n s (s.assign slot ref heap) := fun i hi => if_neg (by omega)

@[simp] theorem assign_self (slot : Nat) (ref : Ref) (heap : Heap) :
    (s.assign slot ref heap).results slot = ref := if_pos rfl

theorem Same.map_range {s' : Store} (h : Same n s s') :
    (List.range n).map s'.results = (List.range n).map s.results :=
  List.map_congr_left fun i hi => h i (List.mem_range.mp hi)

theorem Owns.top (h : s.Owns (n + 1)) :
    s.heap.Balanced (s.results n :: (List.range n).map s.results) := by
  unfold Owns at h
  rw [List.range_succ, List.map_append] at h
  exact h.perm (List.perm_append_singleton _ _)

theorem owns_assign {ref : Ref} {heap : Heap}
    (h : heap.Balanced (ref :: (List.range n).map s.results)) : (s.assign n ref heap).Owns (n + 1) := by
  unfold Owns
  rw [List.range_succ, List.map_append, (same_assign (Nat.le_refl n) ref heap).map_range,
    List.map_singleton, assign_self]
  exact h.perm (List.perm_append_singleton _ _).symm

theorem Owns.assign_sentinel (h : s.Owns n) {ref : Ref} (hs : ref.numbers = []) :
    (s.assign n ref s.heap).Owns (n + 1) := owns_assign ((Heap.Balanced.cons_iff hs).mpr h)

theorem Owns.assign_new (h : s.Owns n) : (s.assign n s.heap.next s.heap.create).Owns (n + 1) :=
  owns_assign h.create

theorem Owns.drop (h : s.Owns (n + 1)) (hs : (s.results n).numbers = []) : s.Owns n :=
  (Heap.Balanced.cons_iff hs).mp h.top

theorem Owns.free (h : s.Owns (n + 1)) :
    ({ s with heap := s.heap.release (s.results n) } : Store).Owns n := h.top.release

/-- The topmost item goes to the array below it. -/
theorem Owns.append {id : Nat} (h : s.Owns (n + 2)) (harray : s.results n = .value id) :
    ({ s with heap := s.heap.append (s.results n) (s.results (n + 1)) } : Store).Owns (n + 1) := by
  have htop := h.top
  rw [List.range_succ, List.map_append, List.map_singleton, harray] at htop
  have hbalanced := (htop.perm (List.Perm.cons _ (List.perm_append_singleton _ _))).append
  rw [← harray] at hbalanced
  unfold Owns
  rw [List.range_succ, List.map_append]
  exact hbalanced.perm (List.perm_append_singleton _ _).symm

/-- The topmost slots are wrapped into the lowest of them. -/
theorem Owns.wrap {count : Nat} (h : s.Owns (n + count)) :
    (s.assign n s.heap.next (s.heap.wrap ((List.range' n count).map s.results))).Owns (n + 1) := by
  apply owns_assign
  apply Heap.Balanced.wrap
  have hsplit : List.range (n + count) = List.range n ++ List.range' n count := by
    rw [List.range_eq_range', List.range_eq_range', ← List.range'_append_1, Nat.zero_add]
  unfold Owns at h
  rw [hsplit, List.map_append] at h
  exact h.perm List.perm_append_comm

end Store

end Backtrack
