import Backtrack.Proofs.Listing.Plain
import Backtrack.Proofs.Listing.Words

/-!
# Reading lines of C

The lines of a rule function are read one after another, each without the spaces in front of it.
Comments say nothing. A line is a statement, a condition with its statement, or it opens or closes a
block; a reader keeps what it has read of the blocks that are open. Printed code is read as that
code, made plain.
-/

namespace Backtrack

set_option autoImplicit false

namespace Listing

open CString CString.Scan

/-- What a line is. -/
inductive Phrase where
  | nothing
  | instr (instruction : Instruction)
  | guard (condition : Condition) (instruction : Instruction)
  | openBranch (condition : Condition)
  | openElse
  | closeBranch
  | openLoop
  | closeLoop (purpose : Loop)

/-- What comes after the end of a comment. -/
def afterComment : List Char → Option (List Char)
  | '*' :: '/' :: rest => some rest
  | _ :: rest => afterComment rest
  | [] => none

/-- The end of a line, where there can be a comment. -/
def lineEnd : Scan Unit
  | [] => some ((), [])
  | '/' :: '*' :: rest => if afterComment rest = some [] then some ((), []) else none
  | _ => none

/-- What follows the condition of a branch: one statement in braces, or nothing. -/
def branch (test : Condition) : Scan Phrase :=
  .guard test <$> (do word " "; before " \x7d" instruction) <|> (do lineEnd; return .openBranch test)

/-- The end of a declaration, whatever it declares. -/
def declaration : Scan Phrase := (fun _ => .nothing) <$> before ";" fun _ => some ((), [])

/-- Lines that open or close a block, but for the end of a branch, and declarations. -/
def blocks : List (String × Scan Phrase) := [
  ("if (", condition ") \x7b" >>= branch),
  ("do \x7b", do lineEnd; return .openLoop),
  ("\x7d else \x7b", do lineEnd; return .openElse),
  ("\x7d while (0);", do lineEnd; return .closeLoop .sequence),
  ("\x7d while (1);", do lineEnd; return .closeLoop .repetition),
  ("ResultPtr", declaration),
  ("struct Location", declaration)]

/-- A line with nothing on it, or the end of a branch. -/
def idle : Scan Phrase :=
  (fun _ => .nothing) <$> lineEnd <|> (do word "\x7d"; lineEnd; return .closeBranch)

def phrase : Scan Phrase := .instr <$> instruction <|> choose blocks idle

/-- What is read from a line, without the spaces in front of it. -/
def fromLine {α : Type} (scan : Scan α) (line : String) : Option α :=
  match scan (line.toList.dropWhile (· = ' ')) with
  | some (found, []) => some found
  | _ => none

/-- Where a reader of lines is: in a block, after the code of the blocks around it and some code of
its own, or in a part of a branch. -/
inductive Reader where
  | block (around : List Code) (done : Code)
  | inYes (around : List Code) (done : Code) (condition : Condition) (yes : List Instruction)
  | inNo (around : List Code) (done : Code) (condition : Condition) (yes no : List Instruction)

namespace Reader

def take : Reader → Phrase → Option Reader
  | reader, .nothing => some reader
  | block around done, .instr instruction => some (block around (done ++ .instr instruction))
  | block around done, .guard condition instruction =>
    some (block around (done ++ .guard condition instruction))
  | block around done, .openBranch condition => some (inYes around done condition [])
  | block around done, .openLoop => some (block (done :: around) .skip)
  | block (before :: around) done, .closeLoop purpose =>
    some (block around (before ++ .loop purpose done))
  | inYes around done condition yes, .instr instruction =>
    some (inYes around done condition (yes ++ [instruction]))
  | inYes around done condition yes, .openElse => some (inNo around done condition yes [])
  | inYes around done condition yes, .closeBranch =>
    some (block around (done ++ .branch condition yes []))
  | inNo around done condition yes no, .instr instruction =>
    some (inNo around done condition yes (no ++ [instruction]))
  | inNo around done condition yes no, .closeBranch =>
    some (block around (done ++ .branch condition yes no))
  | _, _ => none

def line (reader : Reader) (text : String) : Option Reader :=
  (fromLine phrase text).bind reader.take

def lines (reader : Reader) (texts : List String) : Option Reader := texts.foldlM line reader

end Reader

/-- The code that lines are the text of. -/
def code? (texts : List String) : Option Code :=
  match (Reader.block [] .skip).lines texts with
  | some (.block [] code) => some code
  | _ => none

theorem blocks_distinct : Distinct blocks := by decide

theorem fromLine_placed {text : String} {found : Phrase} (h : phrase text.toList = some (found, []))
    (depth : Nat) : fromLine phrase (Lines.placed depth text) = some found := by
  have hdrop : (Lines.placed depth text).toList.dropWhile (· = ' ') = text.toList := by
    cases htext : text.toList with
    | nil =>
      obtain rfl := String.toList_eq_nil_iff.mp htext
      rfl
    | cons c rest =>
      have hspace : c ≠ ' ' := by
        rintro rfl
        rw [htext] at h
        cases h
      have hne : text ≠ "" := by
        rintro rfl
        cases htext
      rw [Lines.placed, if_neg hne, String.toList_append, String.toList_ofList, htext,
        List.dropWhile_append_of_pos (by simp), List.dropWhile_cons_of_neg (by simpa using hspace)]
  unfold fromLine
  rw [hdrop, h]

theorem phrase_instr (step : Instruction) : phrase step.text.toList = some (.instr step, []) :=
  orElse_of_some (map_of _ (instruction_printed step)) _

theorem afterComment_append {text : List Char} (h : '*' ∉ text) :
    afterComment (text ++ "*/".toList) = some [] := by
  induction text with
  | nil => rfl
  | cons c text ih =>
    obtain ⟨hc, htext⟩ := not_or.mp (List.mem_cons.not.mp h)
    rw [List.cons_append, afterComment.eq_2]
    · exact ih htext
    · rintro rest rfl
      exact absurd rfl hc

/-- A line with a comment and a number in it. -/
theorem phrase_comment (words : String) (n : Nat) (h : '*' ∉ words.toList) :
    phrase ("/*".toList ++ ((words.toList ++ (toString n).toList) ++ "*/".toList)) =
      some (.nothing, []) := by
  have hstar : '*' ∉ words.toList ++ (toString n).toList := by
    intro hmem
    rcases List.mem_append.mp hmem with hmem | hmem
    · exact h hmem
    · cases isDigit_of_mem_toString hmem
  have hend : lineEnd ("/*".toList ++ ((words.toList ++ (toString n).toList) ++ "*/".toList)) =
      some ((), []) := if_pos (afterComment_append hstar)
  have hidle := orElse_of_some (map_of (fun _ => Phrase.nothing) hend)
    (do word "\x7d"; lineEnd; return .closeBranch)
  exact (orElse_of_none rfl _).trans hidle

theorem phrase_remark (note : Remark) : phrase note.text.toList = some (.nothing, []) := by
  cases note with
  | element index =>
    have htext : (Remark.element index).text.toList = "/*".toList ++
        (("element ".toList ++ (toString index).toList) ++ "*/".toList) := by
      unfold Remark.text
      simp only [String.toList_append, List.append_assoc]
      rfl
    rw [htext]
    exact phrase_comment "element " index (by decide)
  | alternative index =>
    have htext : (Remark.alternative index).text.toList = "/*".toList ++
        (("alternative ".toList ++ (toString index).toList) ++ "*/".toList) := by
      unfold Remark.text
      simp only [String.toList_append, List.append_assoc]
      rfl
    rw [htext]
    exact phrase_comment "alternative " index (by decide)

theorem phrase_guard (test : Condition) (step : Instruction) :
    phrase ("if (" ++ test.text ++ ") \x7b " ++ step.text ++ " \x7d").toList =
      some (.guard test step, []) := by
  have hchoose := @choose_of_getElem? _ _ blocks_distinct
  have hstep := before_of (instruction_printed step) " \x7d"
  simp only [String.toList_append, List.append_assoc]
  refine (orElse_of_none rfl _).trans ((hchoose 0 rfl _ _).trans ?_)
  refine (bind_of (condition_printed test ") \x7b" (" ".toList ++ _) rfl)).trans ?_
  exact orElse_of_some (map_of _ ((bind_of (word_append " " _)).trans hstep)) _

theorem phrase_branch (test : Condition) :
    phrase ("if (" ++ test.text ++ ") \x7b").toList = some (.openBranch test, []) := by
  have hchoose := @choose_of_getElem? _ _ blocks_distinct
  simp only [String.toList_append, List.append_assoc]
  refine (orElse_of_none rfl _).trans ((hchoose 0 rfl _ _).trans ?_)
  exact bind_of (condition_printed test ") \x7b" [] rfl)

theorem phrase_else : phrase "\x7d else \x7b".toList = some (.openElse, []) := by rfl

theorem phrase_end : phrase "\x7d".toList = some (.closeBranch, []) := by rfl

theorem phrase_opening (purpose : Loop) : phrase purpose.opening.toList = some (.openLoop, []) := by
  cases purpose with
  | sequence => rfl
  | choice => rfl
  | repetition => rfl

theorem phrase_closing (purpose : Loop) :
    phrase purpose.closing.toList = some (.closeLoop purpose.plain, []) := by
  cases purpose with
  | sequence => rfl
  | choice => rfl
  | repetition => rfl

theorem declaration_printed (names : List Char) :
    declaration (names ++ ";".toList) = some (.nothing, []) := map_of _ (before_of rfl ";")

namespace Reader

variable (around : List Code) (done : Code) (depth : Nat)

theorem line_placed (reader : Reader) {text : String} {found : Phrase}
    (h : phrase text.toList = some (found, [])) :
    reader.line (Lines.placed depth text) = reader.take found := by
  rw [line, fromLine_placed h, Option.bind_some]

theorem lines_cons (reader : Reader) (text : String) (texts : List String) :
    reader.lines (text :: texts) = (reader.line text).bind fun next => next.lines texts :=
  List.foldlM_cons

theorem lines_append (reader : Reader) (first second : List String) :
    reader.lines (first ++ second) = (reader.lines first).bind fun next => next.lines second :=
  List.foldlM_append

/-- The instructions in a part of a branch are gathered one after another. -/
theorem lines_block (part : List Instruction → Reader)
    (hpart : ∀ steps step, (part steps).take (.instr step) = some (part (steps ++ [step])))
    (steps instructions : List Instruction) :
    (part steps).lines (Code.block depth instructions) = some (part (steps ++ instructions)) := by
  induction instructions generalizing steps with
  | nil =>
    rw [List.append_nil]
    rfl
  | cons step rest ih =>
    have hstep := line_placed (depth + 1) (part steps) (phrase_instr step)
    change (part steps).lines (_ :: Code.block depth rest) = _
    rw [lines_cons, hstep, hpart, Option.bind_some, ih, List.append_assoc]
    rfl

/-- Printed code is read as code that comes after what was read before. -/
theorem lines_printed (code : Code) :
    (block around done).lines (code.lines depth) = some (block around (done.onto code)) := by
  induction code generalizing around done depth with
  | skip => rfl
  | seq first second ihfirst ihsecond =>
    rw [Code.lines, lines_append, ihfirst]
    exact ihsecond ..
  | instr step =>
    rw [Code.lines, lines_cons, line_placed depth _ (phrase_instr step)]
    rfl
  | remark note =>
    rw [Code.lines, lines_cons, line_placed depth _ (phrase_remark note)]
    rfl
  | blank => rfl
  | guard test step =>
    rw [Code.lines, lines_cons, line_placed depth _ (phrase_guard test step)]
    rfl
  | branch test yes no =>
    have hopen := line_placed depth (block around done) (phrase_branch test)
    have hyes := lines_block depth (inYes around done test) (fun _ _ => rfl) [] yes
    cases no with
    | nil =>
      have hend := line_placed depth (inYes around done test yes) phrase_end
      rw [Code.lines, lines_cons, hopen]
      change (inYes around done test []).lines (_ ++ _) = _
      rw [lines_append, hyes, Option.bind_some, List.nil_append, lines_cons, hend]
      rfl
    | cons first rest =>
      have hno := lines_block depth (inNo around done test yes) (fun _ _ => rfl) [] (first :: rest)
      have helse := line_placed depth (inYes around done test yes) phrase_else
      have hend := line_placed depth (inNo around done test yes (first :: rest)) phrase_end
      change (block around done).lines (_ :: (_ ++ _ :: (_ ++ _))) = _
      rw [lines_cons, hopen]
      change (inYes around done test []).lines (_ ++ _ :: (_ ++ _)) = _
      rw [lines_append, hyes, Option.bind_some, List.nil_append, lines_cons, helse]
      change (inNo around done test yes []).lines (_ ++ _) = _
      rw [lines_append, hno, Option.bind_some, List.nil_append, lines_cons, hend]
      rfl
  | loop purpose body ih =>
    have hopen := line_placed depth (block around done) (phrase_opening purpose)
    have hclose := line_placed depth (block (done :: around) (Code.skip.onto body))
      (phrase_closing purpose)
    rw [Code.lines, lines_cons, hopen]
    change (block (done :: around) .skip).lines (_ ++ _) = _
    rw [lines_append, ih, Option.bind_some, lines_cons, hclose]
    rfl

end Reader

theorem code?_of_lines {texts : List String} {code : Code}
    (h : (Reader.block [] .skip).lines texts = some (.block [] code)) : code? texts = some code := by
  rw [code?, h]

/-- Printed code is read as that code, made plain. -/
theorem code?_lines (code : Code) (depth : Nat) : code? (code.lines depth) = some code.plain :=
  code?_of_lines (Reader.lines_printed [] .skip depth code)

/-- A choice of two bytes, as it is printed in a function. -/
example :
    code? ["  do \x7b/*choice*/", "    /*alternative 1*/", "    r0 = parseAny(ctx);",
      "    if (!isFailed(r0)) \x7b break; \x7d", "", "    /*alternative 2*/",
      "    r0 = parseAny(ctx);", "  \x7d while (0);/*choice*/"] =
    some (.skip ++ .loop .sequence
      (((.skip ++ .instr (.assign 0 .anyByte)) ++ .guard (.matched 0) .leave) ++
        .instr (.assign 0 .anyByte))) := by
  rfl

end Listing

end Backtrack
