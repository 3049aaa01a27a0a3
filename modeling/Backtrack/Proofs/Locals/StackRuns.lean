import Mathlib.Data.List.Induction
import Backtrack.Proofs.Locals.Declarations

/-!
# Runs of a slot stack

Any requests in any order, also such as fail: a slot stack knows at every time how many slots are
live and how many ever were. A request fails exactly when it reaches for a slot that is not live,
and then it changes nothing.
-/

namespace Backtrack

set_option autoImplicit false

namespace SlotStack

/-- A use of a stack in place. What was done to the stack before a failure stays done. -/
abbrev Change := EStateM StackError SlotStack

namespace Change

def ofExcept {α : Type} : Except StackError α → Change α
  | .ok a => pure a
  | .error error => throw error

def alloc : Change Slot := modifyGet fun stack => (stack.slot stack.alloc.1, stack.alloc.2)

def push (expr : String) : Change String := do return (← alloc).assignment expr

def pop : Change Slot := do
  let stack ← get
  let (index, released) ← ofExcept stack.pop
  set released
  return stack.slot index

def popMany (n : Nat) : Change (List Slot) := do
  let stack ← get
  let (indices, released) ← ofExcept (stack.popMany n)
  set released
  return indices.map stack.slot

/-- Releases the topmost slot so many times. -/
def pops : Nat → Change (List Slot)
  | 0 => return []
  | n + 1 => do
    let slot ← pop
    return slot :: (← pops n)

def replace (expr : String) : Change String := do
  let stack ← get
  let (index, replaced) ← ofExcept stack.replace
  set replaced
  return (stack.slot index).assignment expr

def below (k : Nat) : Change Slot := do
  let stack ← get
  return stack.slot (← ofExcept (stack.below k))

def liveFrom (start : Int) : Change (List Slot) := do
  let stack ← get
  return (← ofExcept (stack.liveFrom start)).map stack.slot

end Change

/-- What a slot stack is asked for. -/
inductive Request where
  | push (expr : String)
  | alloc
  | pop
  | popMany (n : Nat)
  | replace (expr : String)
  | topmost
  | below (k : Nat)
  | liveFrom (start : Int)

inductive Answer where
  | slot (slot : Slot)
  | slots (slots : List Slot)
  | statement (text : String)

namespace Request

def run : Request → Change Answer
  | .push expr => .statement <$> Change.push expr
  | .alloc => .slot <$> Change.alloc
  | .pop => .slot <$> Change.pop
  | .popMany n => .slots <$> Change.popMany n
  | .replace expr => .statement <$> Change.replace expr
  | .topmost => .slot <$> Change.below 0
  | .below k => .slot <$> Change.below k
  | .liveFrom start => .slots <$> Change.liveFrom start

/-- The request makes one more slot live. -/
def Pushes : Request → Prop
  | .push _ | .alloc => True
  | .pop | .popMany _ | .replace _ | .topmost | .below _ | .liveFrom _ => False

/-- The request reaches for a slot that is not live, where `top` is the topmost live one. -/
def Exceeds (top : Int) : Request → Prop
  | .push _ | .alloc => False
  | .pop | .replace _ | .topmost => top = -1
  | .popMany n => top + 1 < n
  | .below k => top < k
  | .liveFrom start => start < 0

/-- The stack after a request that does not fail. -/
def next (stack : SlotStack) : Request → SlotStack
  | .push _ | .alloc => stack.alloc.2
  | .pop => { stack with live := stack.live - 1 }
  | .popMany n => { stack with live := stack.live - n }
  | .replace _ => { stack with peak := max stack.peak stack.live }
  | .topmost | .below _ | .liveFrom _ => stack

end Request

/-- The stack after a request, failed or not. -/
def after (stack : SlotStack) (request : Request) : SlotStack :=
  match request.run stack with
  | .ok _ stack | .error _ stack => stack

/-- Requests are served in order. One that fails does not stop those after it. -/
def serveAll (stack : SlotStack) (requests : List Request) : SlotStack :=
  requests.foldl after stack

namespace Change

variable {stack : SlotStack} {n : Nat}

theorem pop_empty (h : stack.live = 0) : pop stack = .error (stack.underflow 1) stack := by
  change EStateM.bind (ofExcept stack.pop) _ stack = _
  rw [SlotStack.pop, h]
  rfl

theorem pop_live (h : stack.live = n + 1) :
    pop stack = .ok (stack.slot n) { stack with live := n } := by
  change EStateM.bind (ofExcept stack.pop) _ stack = _
  rw [SlotStack.pop, h]
  rfl

theorem popMany_short (h : stack.live < n) :
    popMany n stack = .error (stack.underflow n) stack := by
  change EStateM.bind (ofExcept (stack.popMany n)) _ stack = _
  rw [SlotStack.popMany, if_pos h]
  rfl

theorem popMany_live (h : n ≤ stack.live) :
    popMany n stack = .ok ((List.range' (stack.live - n) n).map stack.slot)
      { stack with live := stack.live - n } := by
  change EStateM.bind (ofExcept (stack.popMany n)) _ stack = _
  rw [SlotStack.popMany, if_neg (by omega)]
  rfl

theorem replace_empty (h : stack.live = 0) (expr : String) :
    replace expr stack = .error (stack.underflow 1) stack := by
  change EStateM.bind (ofExcept stack.replace) _ stack = _
  rw [SlotStack.replace, SlotStack.pop, h]
  rfl

/-- The topmost slot is made live again, so that only the highest count may change. -/
theorem replace_live (h : stack.live = n + 1) (expr : String) :
    replace expr stack = .ok ((stack.slot n).assignment expr)
      { stack with peak := max stack.peak stack.live } := by
  change EStateM.bind (ofExcept stack.replace) _ stack = _
  rw [SlotStack.replace, SlotStack.pop, h]
  cases stack
  cases h
  rfl

/-- Replacing is popping and then pushing. Where there is nothing to pop, nothing is pushed. -/
theorem replace_eq_pop_push (expr : String) :
    replace expr = (do let _ ← pop; push expr) := by
  funext stack
  change _ = EStateM.bind pop (fun _ => push expr) stack
  rw [EStateM.bind]
  cases hlive : stack.live with
  | zero => rw [replace_empty hlive, pop_empty hlive]
  | succ n =>
    rw [replace_live hlive, pop_live hlive]
    cases stack
    cases hlive
    rfl

theorem below_dead {k : Nat} (h : stack.live ≤ k) :
    below k stack = .error (.negativeIndex stack.stem (stack.top - k)) stack := by
  change EStateM.bind (ofExcept (stack.below k)) _ stack = _
  rw [SlotStack.below, if_neg (by omega)]
  rfl

theorem below_live {k : Nat} (h : k < stack.live) :
    below k stack = .ok (stack.slot (stack.live - 1 - k)) stack := by
  change EStateM.bind (ofExcept (stack.below k)) _ stack = _
  rw [SlotStack.below, if_pos h]
  rfl

theorem liveFrom_negative {start : Int} (h : start < 0) :
    liveFrom start stack = .error (.negativeIndex stack.stem start) stack := by
  cases start with
  | ofNat n => exact absurd h (Int.not_lt.mpr (Int.natCast_nonneg n))
  | negSucc n => rfl

theorem liveFrom_natural (n : Nat) :
    liveFrom n stack = .ok ((List.range' n (stack.live - n)).map stack.slot) stack := rfl

theorem pops_live (h : n ≤ stack.live) :
    pops n stack = .ok ((List.range' (stack.live - n) n).map stack.slot).reverse
      { stack with live := stack.live - n } := by
  induction n generalizing stack with
  | zero => rfl
  | succ n ih =>
    have hlive : stack.live = stack.live - 1 + 1 := by omega
    have hfits : n ≤ ({ stack with live := stack.live - 1 } : SlotStack).live :=
      Nat.le_sub_of_add_le h
    have hrest := ih hfits
    change EStateM.bind pop _ stack = _
    rw [EStateM.bind, pop_live hlive]
    change EStateM.bind (pops n) _ { stack with live := stack.live - 1 } = _
    rw [EStateM.bind, hrest]
    have hfirst : stack.live - 1 - n = stack.live - (n + 1) := by omega
    have hlast : stack.live - (n + 1) + n = stack.live - 1 := by omega
    rw [hfirst, List.range'_concat, List.map_append, List.reverse_append, Nat.one_mul, hlast]
    rfl

theorem pops_short (h : stack.live < n) : ∃ error emptied, pops n stack = .error error emptied := by
  induction n generalizing stack with
  | zero => omega
  | succ n ih =>
    change ∃ error emptied, EStateM.bind pop _ stack = _
    rw [EStateM.bind]
    by_cases hempty : stack.live = 0
    · rw [pop_empty hempty]
      exact ⟨_, _, rfl⟩
    · have hlive : stack.live = stack.live - 1 + 1 := by omega
      have hshort : ({ stack with live := stack.live - 1 } : SlotStack).live < n := by
        change stack.live - 1 < n
        omega
      obtain ⟨error, emptied, hrest⟩ := ih hshort
      rw [pop_live hlive]
      change ∃ error emptied, EStateM.bind (pops n) _ { stack with live := stack.live - 1 } = _
      rw [EStateM.bind, hrest]
      exact ⟨error, emptied, rfl⟩

/-- Slots that are released at once are those released one by one, the last one first. -/
theorem popMany_eq_ok_iff {slots : List Slot} {released : SlotStack} :
    popMany n stack = .ok slots released ↔ pops n stack = .ok slots.reverse released := by
  by_cases h : n ≤ stack.live
  · rw [popMany_live h, pops_live h, EStateM.Result.ok.injEq, EStateM.Result.ok.injEq,
      List.reverse_inj]
  · obtain ⟨error, emptied, hpops⟩ := pops_short (Nat.lt_of_not_le h)
    rw [popMany_short (Nat.lt_of_not_le h), hpops]
    constructor <;> exact nofun

/-- Of all slots that are live, those from an index on. -/
theorem liveFrom_eq_filter (n : Nat) :
    liveFrom n stack =
      .ok (((List.range stack.live).filter (n ≤ ·)).map stack.slot) stack := by
  have hfilter : (List.range stack.live).filter (n ≤ ·) = List.range' n (stack.live - n) := by
    generalize stack.live = live
    induction live with
    | zero =>
      rw [Nat.zero_sub]
      rfl
    | succ live ih =>
      rw [List.range_succ, List.filter_append, ih]
      by_cases h : n ≤ live
      · have hlength : live + 1 - n = live - n + 1 := by omega
        have hlast : n + (live - n) = live := by omega
        rw [hlength, List.range'_concat, Nat.one_mul, hlast]
        simp [h]
      · have hlength : live + 1 - n = live - n := by omega
        rw [hlength]
        simp [h]
  rw [liveFrom_natural, hfilter]

end Change

namespace Request

variable {stack : SlotStack} {request : Request}

theorem map_eq_ok {α β : Type} (f : α → β) {x : Change α} {a : α} {after : SlotStack}
    (h : x stack = .ok a after) : (f <$> x) stack = .ok (f a) after := by
  rw [map_eq_pure_bind]
  change EStateM.bind x _ stack = _
  rw [EStateM.bind, h]
  rfl

theorem map_eq_error {α β : Type} (f : α → β) {x : Change α} {error : StackError}
    {after : SlotStack} (h : x stack = .error error after) :
    (f <$> x) stack = .error error after := by
  rw [map_eq_pure_bind]
  change EStateM.bind x _ stack = _
  rw [EStateM.bind, h]

theorem run_of_exceeds (h : request.Exceeds stack.top) :
    ∃ error, request.run stack = .error error stack := by
  cases request with
  | push expr => cases h
  | alloc => cases h
  | pop =>
    simp only [Exceeds, SlotStack.top] at h
    exact ⟨_, map_eq_error _ (Change.pop_empty (by omega))⟩
  | popMany n =>
    simp only [Exceeds, SlotStack.top] at h
    exact ⟨_, map_eq_error _ (Change.popMany_short (by omega))⟩
  | replace expr =>
    simp only [Exceeds, SlotStack.top] at h
    exact ⟨_, map_eq_error _ (Change.replace_empty (by omega) expr)⟩
  | topmost =>
    simp only [Exceeds, SlotStack.top] at h
    exact ⟨_, map_eq_error _ (Change.below_dead (by omega))⟩
  | below k =>
    simp only [Exceeds, SlotStack.top] at h
    exact ⟨_, map_eq_error _ (Change.below_dead (by omega))⟩
  | liveFrom start => exact ⟨_, map_eq_error _ (Change.liveFrom_negative h)⟩

theorem run_of_not_exceeds (h : ¬ request.Exceeds stack.top) :
    ∃ answer, request.run stack = .ok answer (request.next stack) := by
  cases request with
  | push expr => exact ⟨_, rfl⟩
  | alloc => exact ⟨_, rfl⟩
  | pop =>
    simp only [Exceeds, SlotStack.top] at h
    have hlive : stack.live = stack.live - 1 + 1 := by omega
    exact ⟨_, map_eq_ok _ (Change.pop_live hlive)⟩
  | popMany n =>
    simp only [Exceeds, SlotStack.top] at h
    exact ⟨_, map_eq_ok _ (Change.popMany_live (by omega))⟩
  | replace expr =>
    simp only [Exceeds, SlotStack.top] at h
    have hlive : stack.live = stack.live - 1 + 1 := by omega
    exact ⟨_, map_eq_ok _ (Change.replace_live hlive expr)⟩
  | topmost =>
    simp only [Exceeds, SlotStack.top] at h
    exact ⟨_, map_eq_ok _ (Change.below_live (by omega))⟩
  | below k =>
    simp only [Exceeds, SlotStack.top] at h
    exact ⟨_, map_eq_ok _ (Change.below_live (by omega))⟩
  | liveFrom start =>
    obtain ⟨n, rfl⟩ := Int.eq_ofNat_of_zero_le (Int.not_lt.mp h)
    exact ⟨_, map_eq_ok _ (Change.liveFrom_natural n)⟩

end Request

/-- Only a request that reaches too far fails, and it leaves the stack as it was. -/
theorem Request.exceeds_of_run_error {stack left : SlotStack} {request : Request}
    {error : StackError} (h : request.run stack = .error error left) :
    request.Exceeds stack.top ∧ left = stack := by
  by_cases hexceeds : request.Exceeds stack.top
  · obtain ⟨cause, hrun⟩ := run_of_exceeds hexceeds
    rw [hrun] at h
    cases h
    exact ⟨hexceeds, rfl⟩
  · obtain ⟨answer, hrun⟩ := run_of_not_exceeds hexceeds
    rw [hrun] at h
    cases h

theorem after_cases (stack : SlotStack) (request : Request) :
    request.Exceeds stack.top ∧ stack.after request = stack ∨
    ¬ request.Exceeds stack.top ∧ stack.after request = request.next stack := by
  by_cases h : request.Exceeds stack.top
  · obtain ⟨error, hrun⟩ := Request.run_of_exceeds h
    exact Or.inl ⟨h, by rw [after, hrun]⟩
  · obtain ⟨answer, hrun⟩ := Request.run_of_not_exceeds h
    exact Or.inr ⟨h, by rw [after, hrun]⟩

/-- No more slots are live than ever were. -/
def Counted (stack : SlotStack) : Prop := stack.live ≤ stack.peak

variable {stack : SlotStack}

/-- After one request, the highest count is the one before or the one now. -/
theorem Counted.peak_after (h : stack.Counted) (request : Request) :
    (stack.after request).peak = max stack.peak (stack.after request).live := by
  unfold Counted at h
  rcases stack.after_cases request with ⟨-, hafter⟩ | ⟨-, hafter⟩
  · rw [hafter]
    omega
  · rw [hafter]
    cases request <;> dsimp only [Request.next, alloc] <;> omega

theorem Counted.after (h : stack.Counted) (request : Request) : (stack.after request).Counted := by
  have hpeak := h.peak_after request
  unfold Counted
  omega

/-- Only a request that pushes makes the first slot live. -/
theorem Counted.peak_after_eq_zero_iff (h : stack.Counted) (request : Request) :
    (stack.after request).peak = 0 ↔ stack.peak = 0 ∧ ¬ request.Pushes := by
  unfold Counted at h
  rcases stack.after_cases request with ⟨hexceeds, hafter⟩ | ⟨-, hafter⟩
  · rw [hafter]
    cases request with
    | push expr => cases hexceeds
    | alloc => cases hexceeds
    | _ => simp only [Request.Pushes, not_false_eq_true, and_true]
  · rw [hafter]
    cases request with
    | push expr | alloc =>
      simp only [Request.next, alloc, Request.Pushes, not_true_eq_false, and_false, iff_false]
      omega
    | replace expr =>
      simp only [Request.next, Request.Pushes, not_false_eq_true, and_true]
      omega
    | _ => simp only [Request.next, Request.Pushes, not_false_eq_true, and_true]

theorem serveAll_concat (stack : SlotStack) (front : List Request) (last : Request) :
    stack.serveAll (front ++ [last]) = (stack.serveAll front).after last := by
  rw [serveAll, List.foldl_append]
  rfl

theorem Counted.serveAll (h : stack.Counted) (history : List Request) :
    (stack.serveAll history).Counted := by
  induction history using List.reverseRecOn with
  | nil => exact h
  | append_singleton front last ih =>
    rw [serveAll_concat]
    exact ih.after last

theorem header_serveAll (stack : SlotStack) (history : List Request) :
    (stack.serveAll history).stem = stack.stem ∧ (stack.serveAll history).type = stack.type := by
  induction history using List.reverseRecOn with
  | nil => exact ⟨rfl, rfl⟩
  | append_singleton front last ih =>
    rw [serveAll_concat]
    rcases (stack.serveAll front).after_cases last with ⟨-, hafter⟩ | ⟨-, hafter⟩
    · rw [hafter]
      exact ih
    · rw [hafter]
      cases last <;> exact ih

theorem Counted.live_le_peak (h : stack.Counted) {front history : List Request}
    (hfront : front <+: history) :
    (stack.serveAll front).live ≤ (stack.serveAll history).peak := by
  induction history using List.reverseRecOn with
  | nil =>
    rw [List.prefix_nil.mp hfront]
    exact h
  | append_singleton before last ih =>
    have hpeak := (h.serveAll before).peak_after last
    rw [← serveAll_concat] at hpeak
    rcases List.prefix_concat_iff.mp hfront with rfl | hbefore
    · omega
    · have hle := ih hbefore
      omega

theorem Counted.exists_live_eq_peak (h : stack.Counted) (hnew : stack.live = stack.peak)
    (history : List Request) :
    ∃ front, front <+: history ∧
      (stack.serveAll front).live = (stack.serveAll history).peak := by
  induction history using List.reverseRecOn with
  | nil => exact ⟨[], List.prefix_rfl, hnew⟩
  | append_singleton before last ih =>
    have hpeak := (h.serveAll before).peak_after last
    rw [← serveAll_concat] at hpeak
    by_cases hlast : (stack.serveAll (before ++ [last])).live ≤ (stack.serveAll before).peak
    · obtain ⟨front, hfront, hlive⟩ := ih
      exact ⟨front, hfront.trans (List.prefix_append before [last]), by omega⟩
    · exact ⟨before ++ [last], List.prefix_rfl, by omega⟩

theorem Counted.peak_eq_zero_iff (h : stack.Counted) (hnew : stack.peak = 0)
    (history : List Request) :
    (stack.serveAll history).peak = 0 ↔ ∀ request ∈ history, ¬ request.Pushes := by
  induction history using List.reverseRecOn with
  | nil => exact iff_of_true hnew (List.forall_mem_nil _)
  | append_singleton front last ih =>
    rw [serveAll_concat, (h.serveAll front).peak_after_eq_zero_iff, ih, List.forall_mem_append,
      List.forall_mem_singleton]

theorem declaration?_eq (stack : SlotStack) :
    stack.declaration? = if stack.peak = 0 then none
      else some (Slot.declaration stack.type ((List.range stack.peak).map stack.slot)) := by
  rw [declaration?, Slot.declaration, List.map_map]
  rfl

end SlotStack

/-- Whatever a new stack was asked for, in whatever order: its topmost index lies between minus one
and the highest one, which is the highest that there ever was. It declares the slots up to there,
and none only if nothing was ever pushed. A request fails exactly when it reaches for a slot that is
not live, and changes nothing then; to replace is to pop and to push. Slots that are released at
once are those released one by one, and slots that are listed are the live ones from there on. -/
theorem slot_stacks_keep_count (stem type : String) (history : List SlotStack.Request) :
    let new : SlotStack := { stem, type }
    let stack := new.serveAll history
    (-1 ≤ stack.top ∧ stack.top ≤ stack.maxTop) ∧
    ((∃ front, front <+: history ∧ (new.serveAll front).top = stack.maxTop) ∧
      ∀ front, front <+: history → (new.serveAll front).top ≤ stack.maxTop) ∧
    (stack.declaration? = none ↔ ∀ request ∈ history, ¬ request.Pushes) ∧
    (∀ last : Nat, stack.maxTop = last → stack.declaration? =
      some (Slot.declaration type ((List.range (last + 1)).map (Slot.mk stem)))) ∧
    (∀ request : SlotStack.Request,
      (∃ error after, request.run stack = .error error after) ↔ request.Exceeds stack.top) ∧
    (∀ (request : SlotStack.Request) (error : StackError) (after : SlotStack),
      request.run stack = .error error after → after = stack) ∧
    (∀ expr, SlotStack.Change.replace expr =
      (do let _ ← SlotStack.Change.pop; SlotStack.Change.push expr)) ∧
    (∀ n slots after, SlotStack.Change.popMany n stack = .ok slots after ↔
      SlotStack.Change.pops n stack = .ok slots.reverse after) ∧
    ∀ n : Nat, SlotStack.Change.liveFrom n stack =
      .ok (((List.range (stack.top + 1).toNat).filter (n ≤ ·)).map (Slot.mk stem)) stack := by
  intro new stack
  have hnew : new.Counted := Nat.le_refl 0
  have hcounted : stack.live ≤ stack.peak := hnew.serveAll history
  obtain ⟨hstem, htype⟩ : stack.stem = stem ∧ stack.type = type := new.header_serveAll history
  have hslot : stack.slot = Slot.mk stem := by
    rw [← hstem]
    rfl
  refine ⟨⟨?_, ?_⟩, ⟨?_, ?_⟩, ?_, ?_, ?_, ?_, SlotStack.Change.replace_eq_pop_push, ?_, ?_⟩
  · unfold SlotStack.top
    omega
  · unfold SlotStack.top SlotStack.maxTop
    omega
  · obtain ⟨front, hfront, hlive⟩ := hnew.exists_live_eq_peak rfl history
    refine ⟨front, hfront, ?_⟩
    rw [SlotStack.top, SlotStack.maxTop, hlive]
  · intro front hfront
    have hle : (new.serveAll front).live ≤ stack.peak := hnew.live_le_peak hfront
    unfold SlotStack.top SlotStack.maxTop
    omega
  · have hpeak : stack.peak = 0 ↔ ∀ request ∈ history, ¬ request.Pushes :=
      hnew.peak_eq_zero_iff rfl history
    rw [← hpeak, SlotStack.declaration?_eq]
    simp
  · intro last hlast
    have hpeak : stack.peak = last + 1 := by
      unfold SlotStack.maxTop at hlast
      omega
    rw [SlotStack.declaration?_eq, if_neg (by omega), hpeak, htype, hslot]
  · intro request
    constructor
    · intro h
      obtain ⟨error, after, hrun⟩ := h
      exact (SlotStack.Request.exceeds_of_run_error hrun).1
    · intro h
      obtain ⟨error, hrun⟩ := SlotStack.Request.run_of_exceeds h
      exact ⟨error, stack, hrun⟩
  · intro request error after hrun
    exact (SlotStack.Request.exceeds_of_run_error hrun).2
  · intro n slots after
    exact SlotStack.Change.popMany_eq_ok_iff
  · intro n
    have hlive : (stack.top + 1).toNat = stack.live := by
      unfold SlotStack.top
      omega
    rw [SlotStack.Change.liveFrom_eq_filter, hlive, hslot]

end Backtrack
