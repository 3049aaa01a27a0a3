import Backtrack.Code.Text
import Backtrack.Proofs.Strings.Scanning

/-!
# Reading statements of C

The statements and conditions of a rule function are read from their text. What a text is can be
told from the word it begins with; only the names of user functions, a letter or two, are followed
by a number at once. A printed statement is read as what it was printed for.
-/

namespace Backtrack

set_option autoImplicit false

namespace Listing

open CString CString.Scan

variable {α β : Type}

/-- Goes on by the word in front. -/
def choose : List (String × Scan α) → Scan α → Scan α
  | [], otherwise, text => otherwise text
  | (expected, next) :: table, otherwise, text =>
    match text.dropPrefix? expected.toList with
    | some rest => next rest
    | none => choose table otherwise text

/-- Reads what stands in front of a closing text, which ends the line. -/
def before (closing : String) (scan : Scan α) : Scan α := fun text => do
  let inside ← text.dropSuffix? closing.toList
  match scan inside with
  | some (a, []) => some (a, [])
  | _ => none

/-- A number, and the word after it. -/
def number (closing : String) : Scan Nat := do
  let n ← decimal
  word closing
  return n

/-- A number of 32 bits, and the word after it. -/
def bound (closing : String) : Scan UInt32 := do
  let n ← number closing
  if n < UInt32.size then pure n.toUInt32 else failure

theorem length_le_of_decimal {text rest : List Char} {n : Nat} (h : decimal text = some (n, rest)) :
    rest.length ≤ text.length := by
  unfold decimal at h
  split at h
  · cases h
  · cases h
    exact (List.dropWhile_suffix Char.isDigit).length_le

/-- Result slots, each after a comma, up to a closing parenthesis. -/
def arguments : Scan (List Nat)
  | ')' :: rest => some ([], rest)
  | ',' :: ' ' :: 'r' :: text =>
    match _h : decimal text with
    | some (slot, rest) => (arguments rest).map fun (slots, rest) => (slot :: slots, rest)
    | none => none
  | _ => none
termination_by text => text.length
decreasing_by
  have hle := length_le_of_decimal _h
  simp only [List.length_cons]
  omega

/-- The call of a user function. -/
def call (stem : String) : Scan Call := do
  word stem
  let index ← number "(ctx"
  let args ← arguments
  return ⟨index, args⟩

/-- The name of a rule is all that stands in front of the argument of its function. -/
def ruleName : Scan String := fun text =>
  (text.dropSuffix? "(ctx)".toList).map fun name => (String.ofList name, [])

/-- The address of a constant, and the word after it. -/
def reference (stem closing : String) : Scan Nat := do
  word "&"
  word stem
  number closing

/-- The name of a result slot, and the word after it. -/
def result (closing : String) : Scan Nat := do
  word "r"
  number closing

/-- The name of a position slot, and the word after it. -/
def position (closing : String) : Scan Nat := do
  word "p"
  number closing

def operands : List (String × Scan Operand) := [
  ("&FAILED", pure .failed),
  ("&NIL", pure .noMatch),
  ("createArray()", pure .emptyArray),
  ("parseLiteral(ctx, ", do
    let constant ← reference "l" ", "
    let expected ← reference "e" ")"
    return .literal constant expected),
  ("parseCharClass(ctx, ", do
    let constant ← reference "c" ", "
    let expected ← reference "e" ", "
    let inverted ← choose [("0)", pure false), ("1)", pure true)] failure
    return .charClass constant expected inverted),
  ("parseAny(ctx)", pure .anyByte),
  ("_parse", .rule <$> ruleName),
  ("fail(ctx, ", .failure <$> reference "e" ")"),
  ("wrap(ctx, ", do
    let start ← position ".offset, "
    let count ← decimal
    let values ← arguments
    if values.length = count then pure (.wrapped start values) else failure),
  ("_text(ctx, ", .matchedText <$> position ")")]

def operand : Scan Operand := choose operands failure

/-- What the count of an array is compared with, and the word after it. -/
def comparisons (array : Nat) (closing : String) : List (String × Scan Condition) := [
  ("->count >= ", .full array <$> bound closing),
  ("->count < ", .short array <$> bound closing)]

/-- The conditions that are no calls, and the word after them. -/
def tests (closing : String) : List (String × Scan Condition) := [
  ("isFailed(", .failed <$> (result ")" <* word closing)),
  ("!isFailed(", .matched <$> (result ")" <* word closing)),
  ("r", do
    let array ← decimal
    choose (comparisons array closing) failure)]

/-- A condition, and the word after it. -/
def condition (closing : String) : Scan Condition :=
  .holds <$> (call "is" <* word closing) <|> choose (tests closing) failure

def instructions : List (String × Scan Instruction) := [
  ("r", do
    let slot ← number " = "
    .assign slot <$> before ";" operand),
  ("memcpy(&p", .save <$> number ", &ctx->current, sizeof(struct Location));"),
  ("memcpy(&ctx->current, &", .rewind <$> position ", sizeof(struct Location));"),
  ("++ctx->failInfo.silent;", pure .mute),
  ("--ctx->failInfo.silent;", pure .unmute),
  ("freeResult(", .free <$> result ");"),
  ("append(", do
    let array ← result ", "
    let item ← result ");"
    return .append array item),
  ("break;", pure .leave)]

def instruction : Scan Instruction :=
  .act <$> (call "f" <* word ";") <|> choose instructions failure

/-- Some character of one text is another one in the other text. -/
def differ : List Char → List Char → Bool
  | a :: as, b :: bs => a != b || differ as bs
  | _, _ => false

/-- No word of the table is how another one begins. -/
abbrev Distinct (table : List (String × Scan α)) : Prop :=
  table.Pairwise fun first second => differ first.1.toList second.1.toList = true

theorem dropPrefix?_of_differ {expected text : List Char} (h : differ expected text = true)
    (rest : List Char) : (text ++ rest).dropPrefix? expected = none := by
  induction expected generalizing text with
  | nil => cases h
  | cons c expected ih =>
    cases text with
    | nil => cases h
    | cons d text =>
      rw [List.cons_append, List.dropPrefix?]
      split
      · rename_i heq
        rw [differ, eq_of_beq heq, bne_self_eq_false, Bool.false_or] at h
        exact ih h
      · rfl

theorem dropPrefix?_append (text rest : List Char) : (text ++ rest).dropPrefix? text = some rest :=
  List.dropPrefix?_eq_some_iff.mpr ⟨text, rfl, beq_self_eq_true _⟩

theorem dropSuffix?_append (text rest : List Char) : (text ++ rest).dropSuffix? rest = some text :=
  List.dropSuffix?_eq_some_iff.mpr ⟨rest, rfl, beq_self_eq_true _⟩

/-- A text that begins with a word of the table is read as the table says. -/
theorem choose_of_getElem? {table : List (String × Scan α)} (hdistinct : Distinct table) (i : Nat)
    {expected : String} {next : Scan α} (h : table[i]? = some (expected, next))
    (otherwise : Scan α) (rest : List Char) :
    choose table otherwise (expected.toList ++ rest) = next rest := by
  induction table generalizing i with
  | nil => cases h
  | cons entry table ih =>
    obtain ⟨hfirst, htable⟩ := List.pairwise_cons.mp hdistinct
    cases i with
    | zero =>
      cases h
      rw [choose, dropPrefix?_append]
    | succ i =>
      have hother := hfirst _ (List.mem_of_getElem? h)
      rw [choose, dropPrefix?_of_differ hother]
      exact ih htable i h

theorem operands_distinct : Distinct operands := by decide

theorem tests_distinct (closing : String) : Distinct (tests closing) := by
  simp [Distinct, tests]
  decide

theorem comparisons_distinct (array : Nat) (closing : String) :
    Distinct (comparisons array closing) := by
  simp [Distinct, comparisons]
  decide

theorem instructions_distinct : Distinct instructions := by decide

theorem map_of {scan : Scan α} (f : α → β) {text rest : List Char} {a : α}
    (h : scan text = some (a, rest)) : (f <$> scan) text = some (f a, rest) := by
  change Option.bind (scan text) (fun (a, rest) => some (f a, rest)) = some (f a, rest)
  rw [h]
  rfl

theorem seqLeft_of {scan : Scan α} {next : Scan β} {text between rest : List Char} {a : α} {b : β}
    (h : scan text = some (a, between)) (hnext : next between = some (b, rest)) :
    (scan <* next) text = some (a, rest) := (bind_of h).trans (bind_of hnext)

theorem orElse_of_some {first : Scan α} {text rest : List Char} {a : α}
    (h : first text = some (a, rest)) (second : Scan α) :
    (first <|> second) text = some (a, rest) := by
  change (first text <|> second text) = some (a, rest)
  rw [h]
  rfl

theorem orElse_of_none {first : Scan α} {text : List Char} (h : first text = none)
    (second : Scan α) : (first <|> second) text = second text := by
  change (first text <|> second text) = second text
  rw [h]
  rfl

theorem number_printed (n : Nat) (closing : String) (rest : List Char)
    (h : (closing.toList ++ rest).takeWhile Char.isDigit = []) :
    number closing ((toString n).toList ++ (closing.toList ++ rest)) = some (n, rest) := by
  rw [number, bind_of (decimal_toString n h)]
  exact bind_of (word_append closing rest)

theorem bound_printed (n : UInt32) (closing : String) (rest : List Char)
    (h : (closing.toList ++ rest).takeWhile Char.isDigit = []) :
    bound closing ((toString n).toList ++ (closing.toList ++ rest)) = some (n, rest) := by
  have hnumber := number_printed n.toNat closing rest h
  have hlt : n.toNat < UInt32.size := n.toNat_lt
  change bound closing ((toString n.toNat).toList ++ (closing.toList ++ rest)) = some (n, rest)
  rw [bound, bind_of hnumber, if_pos hlt]
  simp
  rfl

theorem arguments_cons {slot : Nat} {text rest : List Char} (h : decimal text = some (slot, rest)) :
    arguments (',' :: ' ' :: 'r' :: text) =
      (arguments rest).map fun (slots, rest) => (slot :: slots, rest) := by
  rw [arguments]
  split
  · rename_i found after hfound
    rw [h] at hfound
    cases hfound
    rfl
  · rename_i hnone
    rw [h] at hnone
    cases hnone

/-- The names of result slots, each after a comma. -/
def listed (slots : List Nat) : List Char :=
  (String.join (slots.map fun slot => ", " ++ (Slot.result slot).name)).toList

theorem listed_cons (slot : Nat) (slots : List Nat) :
    listed (slot :: slots) = ", r".toList ++ ((toString slot).toList ++ listed slots) := by
  simp [listed, Slot.name, Slot.result, Slot.resultStem]

theorem takeWhile_listed (slots : List Nat) (rest : List Char) :
    (listed slots ++ ')' :: rest).takeWhile Char.isDigit = [] := by
  cases slots with
  | nil => rfl
  | cons next slots =>
    rw [listed_cons]
    rfl

theorem arguments_printed (slots : List Nat) (rest : List Char) :
    arguments (listed slots ++ ')' :: rest) = some (slots, rest) := by
  induction slots with
  | nil =>
    change arguments (')' :: rest) = some ([], rest)
    rw [arguments]
  | cons slot slots ih =>
    have hslot := decimal_toString slot (takeWhile_listed slots rest)
    rw [listed_cons, List.append_assoc, List.append_assoc]
    refine (arguments_cons hslot).trans ?_
    rw [ih]
    rfl

theorem call_printed (stem : String) (function : Call) (rest : List Char) :
    call stem ((function.text stem).toList ++ rest) = some (function, rest) := by
  have htext : (function.text stem).toList ++ rest =
      stem.toList ++ ((toString function.index).toList ++
        ("(ctx".toList ++ (listed function.args ++ ')' :: rest))) := by
    simp [Call.text, listed]
  rw [htext, call, bind_of (word_append ..), bind_of (number_printed _ "(ctx" _ rfl)]
  exact map_of _ (arguments_printed ..)

theorem toList_result (slot : Nat) :
    (Slot.result slot).name.toList = "r".toList ++ (toString slot).toList := String.toList_append

theorem toList_position (index : Nat) :
    (Slot.position index).name.toList = "p".toList ++ (toString index).toList := String.toList_append

theorem reference_printed (stem : String) (index : Nat) (closing : String) (rest : List Char)
    (h : (closing.toList ++ rest).takeWhile Char.isDigit = []) :
    reference stem closing ((Constants.reference stem index).toList ++ (closing.toList ++ rest)) =
      some (index, rest) := by
  have htext : (Constants.reference stem index).toList ++ (closing.toList ++ rest) =
      "&".toList ++ (stem.toList ++ ((toString index).toList ++ (closing.toList ++ rest))) := by
    simp only [Constants.reference, String.toList_append, List.append_assoc]
  rw [htext, reference, bind_of (word_append ..), bind_of (word_append ..)]
  exact number_printed index closing rest h

theorem result_printed (slot : Nat) (closing : String) (rest : List Char)
    (h : (closing.toList ++ rest).takeWhile Char.isDigit = []) :
    result closing ((Slot.result slot).name.toList ++ (closing.toList ++ rest)) =
      some (slot, rest) := by
  rw [toList_result, List.append_assoc, result, bind_of (word_append ..)]
  exact number_printed slot closing rest h

theorem position_printed (index : Nat) (closing : String) (rest : List Char)
    (h : (closing.toList ++ rest).takeWhile Char.isDigit = []) :
    position closing ((Slot.position index).name.toList ++ (closing.toList ++ rest)) =
      some (index, rest) := by
  rw [toList_position, List.append_assoc, position, bind_of (word_append ..)]
  exact number_printed index closing rest h

theorem operand_printed (value : Operand) : operand value.text.toList = some (value, []) := by
  have hchoose := @choose_of_getElem? _ _ operands_distinct
  unfold operand Operand.text
  cases value with
  | failed => exact hchoose 0 rfl failure []
  | noMatch => exact hchoose 1 rfl failure []
  | emptyArray => exact hchoose 2 rfl failure []
  | literal constant expected =>
    simp only [String.toList_append, List.append_assoc]
    refine (hchoose 3 rfl failure _).trans ?_
    refine (bind_of (reference_printed "l" constant ", " _ rfl)).trans ?_
    exact map_of _ (reference_printed "e" expected ")" [] rfl)
  | charClass constant expected inverted =>
    simp only [String.toList_append, List.append_assoc]
    refine (hchoose 4 rfl failure _).trans ?_
    refine (bind_of (reference_printed "c" constant ", " _ rfl)).trans ?_
    refine (bind_of (reference_printed "e" expected ", " _ rfl)).trans ?_
    cases inverted with
    | true => rfl
    | false => rfl
  | anyByte => exact hchoose 5 rfl failure []
  | rule name =>
    unfold RuleName.function
    simp only [String.toList_append, List.append_assoc]
    refine (hchoose 6 rfl failure _).trans ?_
    have hname : ruleName (name.toList ++ "(ctx)".toList) = some (name, []) := by
      rw [ruleName, dropSuffix?_append, Option.map_some, String.ofList_toList]
    exact map_of _ hname
  | failure expected =>
    simp only [String.toList_append, List.append_assoc]
    refine (hchoose 7 rfl failure _).trans ?_
    exact map_of _ (reference_printed "e" expected ")" [] rfl)
  | wrapped start values =>
    simp only [String.toList_append, List.append_assoc]
    refine (hchoose 8 rfl failure _).trans ?_
    refine (bind_of (position_printed start ".offset, " _ rfl)).trans ?_
    refine (bind_of (decimal_toString values.length (takeWhile_listed values []))).trans ?_
    refine (bind_of (arguments_printed values [])).trans ?_
    exact congrFun (if_pos rfl) []
  | matchedText start =>
    simp only [String.toList_append, List.append_assoc]
    refine (hchoose 9 rfl failure _).trans ?_
    exact map_of _ (position_printed start ")" [] rfl)

/-- A condition is read up to the word after it, which is not a digit. -/
theorem condition_printed (test : Condition) (closing : String) (rest : List Char)
    (h : (closing.toList ++ rest).takeWhile Char.isDigit = []) :
    condition closing (test.text.toList ++ (closing.toList ++ rest)) = some (test, rest) := by
  have hchoose := @choose_of_getElem? _ _ (tests_distinct closing)
  have hclosing := word_append closing rest
  unfold condition Condition.text
  cases test with
  | failed slot =>
    simp only [String.toList_append, List.append_assoc]
    refine (orElse_of_none rfl _).trans ((hchoose 0 rfl failure _).trans ?_)
    exact map_of _ (seqLeft_of (result_printed slot ")" _ rfl) hclosing)
  | matched slot =>
    simp only [String.toList_append, List.append_assoc]
    refine (orElse_of_none rfl _).trans ((hchoose 1 rfl failure _).trans ?_)
    exact map_of _ (seqLeft_of (result_printed slot ")" _ rfl) hclosing)
  | full array max =>
    have hcompare := @choose_of_getElem? _ _ (comparisons_distinct array closing)
    simp only [String.toList_append, List.append_assoc, toList_result]
    refine (orElse_of_none rfl _).trans ((hchoose 2 rfl failure _).trans ?_)
    refine (bind_of (decimal_toString array rfl)).trans ((hcompare 0 rfl failure _).trans ?_)
    exact map_of _ (bound_printed max closing rest h)
  | short array min =>
    have hcompare := @choose_of_getElem? _ _ (comparisons_distinct array closing)
    simp only [String.toList_append, List.append_assoc, toList_result]
    refine (orElse_of_none rfl _).trans ((hchoose 2 rfl failure _).trans ?_)
    refine (bind_of (decimal_toString array rfl)).trans ((hcompare 1 rfl failure _).trans ?_)
    exact map_of _ (bound_printed min closing rest h)
  | holds function =>
    apply orElse_of_some
    exact map_of _ (seqLeft_of (call_printed "is" function _) hclosing)

theorem before_of {scan : Scan α} {inside : List Char} {a : α} (h : scan inside = some (a, []))
    (closing : String) : before closing scan (inside ++ closing.toList) = some (a, []) := by
  rw [before, dropSuffix?_append]
  change (match scan inside with
    | some (a, []) => some (a, [])
    | _ => none) = some (a, [])
  rw [h]

theorem instruction_printed (step : Instruction) :
    instruction step.text.toList = some (step, []) := by
  have hchoose := @choose_of_getElem? _ _ instructions_distinct
  unfold instruction Instruction.text
  cases step with
  | assign slot value =>
    simp only [Slot.assignment, String.toList_append, List.append_assoc, toList_result]
    refine (orElse_of_none rfl _).trans ((hchoose 0 rfl failure _).trans ?_)
    refine (bind_of (number_printed slot " = " _ rfl)).trans ?_
    exact map_of _ (before_of (operand_printed value) ";")
  | save index =>
    simp only [String.toList_append, List.append_assoc, toList_position]
    refine (orElse_of_none rfl _).trans ((hchoose 1 rfl failure _).trans ?_)
    exact map_of _ (number_printed index ", &ctx->current, sizeof(struct Location));" [] rfl)
  | rewind index =>
    simp only [String.toList_append, List.append_assoc]
    refine (orElse_of_none rfl _).trans ((hchoose 2 rfl failure _).trans ?_)
    exact map_of _ (position_printed index ", sizeof(struct Location));" [] rfl)
  | mute => exact (orElse_of_none rfl _).trans (hchoose 3 rfl failure [])
  | unmute => exact (orElse_of_none rfl _).trans (hchoose 4 rfl failure [])
  | free slot =>
    simp only [String.toList_append, List.append_assoc]
    refine (orElse_of_none rfl _).trans ((hchoose 5 rfl failure _).trans ?_)
    exact map_of _ (result_printed slot ");" [] rfl)
  | append array item =>
    simp only [String.toList_append, List.append_assoc]
    refine (orElse_of_none rfl _).trans ((hchoose 6 rfl failure _).trans ?_)
    refine (bind_of (result_printed array ", " _ rfl)).trans ?_
    exact map_of _ (result_printed item ");" [] rfl)
  | act function =>
    rw [String.toList_append]
    apply orElse_of_some
    exact map_of _ (seqLeft_of (call_printed "f" function _) (word_append ";" []))
  | leave => exact (orElse_of_none rfl _).trans (hchoose 7 rfl failure [])

end Listing

end Backtrack
