import Backtrack.Proofs.Layout.Bracketing
import Backtrack.Proofs.Locals.Declarations
import Backtrack.Proofs.References.Rules

/-!
# Rule functions are laid out by their braces

Blocks come from loops, from branches on several lines and from guards on one line, and the body of a
rule is put into its function at a depth of its own. All of them are indented by the braces that are
open, as long as the names of rules have none of their own.
-/

namespace Backtrack

set_option autoImplicit false

open Bracketing

theorem bare_fixed (words : String)
    (h : words.toList.all (fun c => c != '\x7b' && c != '\x7d' && c != '\n') = true) :
    Bare words := by
  intro c hc
  have hall := List.all_eq_true.mp h c hc
  simpa [and_assoc] using hall

theorem bare_number (n : Nat) : Bare (toString n) := by
  intro c hc
  have hdigit := isDigit_of_mem_toString hc
  refine ⟨?_, ?_, ?_⟩ <;> rintro rfl <;> cases hdigit

theorem bare_join {parts : List String} (h : ∀ part ∈ parts, Bare part) :
    Bare (String.join parts) := by
  intro c hc
  rw [String.toList_join] at hc
  obtain ⟨part, hpart, hmem⟩ := List.mem_flatMap.mp hc
  exact h part hpart c hmem

theorem bare_intercalate {between : String} (hbetween : Bare between) {parts : List String}
    (h : ∀ part ∈ parts, Bare part) : Bare (between.intercalate parts) := by
  unfold Bare
  rw [String.toList_intercalate]
  induction parts with
  | nil => exact List.forall_mem_nil _
  | cons part rest ih =>
    obtain ⟨hpart, hrest⟩ := List.forall_mem_cons.mp h
    cases rest with
    | nil =>
      rw [List.map_singleton, List.intercalate_singleton]
      exact hpart
    | cons next rest =>
      rw [List.map_cons, List.map_cons, List.intercalate_cons_cons, List.forall_mem_append,
        List.forall_mem_append]
      exact ⟨⟨hpart, hbetween⟩, ih hrest⟩

theorem bare_result (slot : Nat) : Bare (Slot.result slot).name :=
  (bare_fixed Slot.resultStem rfl).append (bare_number slot)

theorem bare_position (index : Nat) : Bare (Slot.position index).name :=
  (bare_fixed Slot.positionStem rfl).append (bare_number index)

/-- The address of a constant, whose name begins with a stem that has no braces. -/
theorem bare_reference {stem : String} (h : Bare stem) (index : Nat) :
    Bare (Constants.reference stem index) :=
  ((bare_fixed "&" rfl).append h).append (bare_number index)

/-- Names of results that follow others, each after a comma. -/
theorem bare_results (slots : List Nat) :
    Bare (String.join (slots.map fun slot => ", " ++ (Slot.result slot).name)) := by
  apply bare_join
  intro part hpart
  obtain ⟨slot, -, rfl⟩ := List.mem_map.mp hpart
  exact (bare_fixed ", " rfl).append (bare_result slot)

theorem Call.bare_text {stem : String} (h : Bare stem) (call : Call) : Bare (call.text stem) :=
  (((h.append (bare_number call.index)).append (bare_fixed _ rfl)).append
    (bare_results call.args)).append (bare_fixed _ rfl)

theorem Operand.bare_text {operand : Operand} (h : ∀ name, operand = .rule name → Bare name) :
    Bare operand.text := by
  have hexpected := bare_reference (bare_fixed Constants.expectedStem rfl)
  cases operand with
  | failed => exact bare_fixed _ rfl
  | noMatch => exact bare_fixed _ rfl
  | emptyArray => exact bare_fixed _ rfl
  | anyByte => exact bare_fixed _ rfl
  | literal constant expected =>
    have hconstant := bare_reference (bare_fixed Constants.literalStem rfl) constant
    have hfront := (bare_fixed "parseLiteral(ctx, " rfl).append hconstant
    exact ((hfront.append (bare_fixed _ rfl)).append (hexpected expected)).append
      (bare_fixed _ rfl)
  | charClass constant expected inverted =>
    have hconstant := bare_reference (bare_fixed Constants.classStem rfl) constant
    have hfront := (bare_fixed "parseCharClass(ctx, " rfl).append hconstant
    have hmiddle := (hfront.append (bare_fixed ", " rfl)).append (hexpected expected)
    have hflag : Bare (if inverted then "1" else "0") := by cases inverted <;> exact bare_fixed _ rfl
    exact ((hmiddle.append (bare_fixed _ rfl)).append hflag).append (bare_fixed _ rfl)
  | rule name => exact (h name rfl).around (bare_fixed _ rfl) (bare_fixed _ rfl)
  | failure expected => exact (hexpected expected).around (bare_fixed _ rfl) (bare_fixed _ rfl)
  | wrapped start values =>
    have hstart := (bare_fixed "wrap(ctx, " rfl).append (bare_position start)
    have hcount := (hstart.append (bare_fixed ".offset, " rfl)).append
      (bare_number values.length)
    exact (hcount.append (bare_results values)).append (bare_fixed _ rfl)
  | matchedText start => exact (bare_position start).around (bare_fixed _ rfl) (bare_fixed _ rfl)

theorem Condition.bare_text (condition : Condition) : Bare condition.text := by
  cases condition with
  | failed slot => exact (bare_result slot).around (bare_fixed _ rfl) (bare_fixed _ rfl)
  | matched slot => exact (bare_result slot).around (bare_fixed _ rfl) (bare_fixed _ rfl)
  | full array max =>
    exact ((bare_result array).append (bare_fixed _ rfl)).append (bare_number max.toNat)
  | short array min =>
    exact ((bare_result array).append (bare_fixed _ rfl)).append (bare_number min.toNat)
  | holds call => exact call.bare_text (bare_fixed _ rfl)

/-- Only the names of rules can bring braces into an instruction. -/
theorem Instruction.bare_text {instruction : Instruction}
    (h : ∀ name ∈ instruction.called, Bare name) : Bare instruction.text := by
  cases instruction with
  | assign slot operand =>
    have hoperand : Bare operand.text := by
      apply Operand.bare_text
      rintro name rfl
      exact h name List.mem_cons_self
    have hslot := (bare_result slot).append (bare_fixed " = " rfl)
    exact (hslot.append hoperand).append (bare_fixed _ rfl)
  | save position => exact (bare_position position).around (bare_fixed _ rfl) (bare_fixed _ rfl)
  | rewind position => exact (bare_position position).around (bare_fixed _ rfl) (bare_fixed _ rfl)
  | mute => exact bare_fixed _ rfl
  | unmute => exact bare_fixed _ rfl
  | free slot => exact (bare_result slot).around (bare_fixed _ rfl) (bare_fixed _ rfl)
  | append array item =>
    have harray := (bare_fixed "append(" rfl).append (bare_result array)
    exact ((harray.append (bare_fixed _ rfl)).append (bare_result item)).append (bare_fixed _ rfl)
  | act call =>
    have hcall : Bare (call.text FunctionTable.actions.stem) := call.bare_text (bare_fixed _ rfl)
    exact hcall.append (bare_fixed _ rfl)
  | leave => exact bare_fixed _ rfl

theorem Instruction.starts (instruction : Instruction) : Starts instruction.text := by
  cases instruction with
  | assign slot operand =>
    have hstem : Starts Slot.resultStem := rfl
    have hslot : Starts (Slot.result slot).name := hstem.append _
    exact ((hslot.append _).append _).append _
  | save position => exact (Starts.append (starts_fixed _ rfl) _).append _
  | rewind position => exact (Starts.append (starts_fixed _ rfl) _).append _
  | mute => rfl
  | unmute => rfl
  | free slot => exact (Starts.append (starts_fixed _ rfl) _).append _
  | append array item =>
    exact (((Starts.append (starts_fixed _ rfl) _).append _).append _).append _
  | act call =>
    have hcall : Starts (call.text FunctionTable.actions.stem) :=
      (((Starts.append (starts_fixed _ rfl) _).append _).append _).append _
    exact hcall.append _
  | leave => rfl

theorem Remark.bare_text (note : Remark) : Bare note.text := by
  cases note with
  | element number => exact (bare_number number).around (bare_fixed _ rfl) (bare_fixed _ rfl)
  | alternative number => exact (bare_number number).around (bare_fixed _ rfl) (bare_fixed _ rfl)

theorem Remark.starts (note : Remark) : Starts note.text := by
  cases note with
  | element number => exact (Starts.append (starts_fixed _ rfl) _).append _
  | alternative number => exact (Starts.append (starts_fixed _ rfl) _).append _

theorem Loop.fits_opening (purpose : Loop) (depth : Nat) :
    Fits depth (Lines.placed depth purpose.opening).toList (depth + 1) := by
  have hstarts : Starts purpose.opening := by cases purpose <;> rfl
  have hcounts : Counts 0 purpose.opening 1 := by
    cases purpose <;> exact counts_fixed _ rfl rfl
  exact fits_placed hstarts hcounts (Nat.le_refl 1) depth

theorem Loop.fits_closing (purpose : Loop) (depth : Nat) :
    Fits (depth + 1) (Lines.placed depth purpose.closing).toList depth := by
  cases purpose with
  | sequence => exact fits_end (bare_fixed " while (0);/*sequence*/" rfl) depth
  | choice => exact fits_end (bare_fixed " while (0);/*choice*/" rfl) depth
  | repetition => exact fits_end (bare_fixed " while (1);" rfl) depth

/-- A condition and what follows it on its line. -/
theorem Condition.counts {text : String} {after : Nat} (condition : Condition)
    (h : Counts 0 text after) : Counts 0 ("if (" ++ condition.text ++ text) after :=
  ((counts_bare (bare_fixed "if (" rfl) 0).append (counts_bare condition.bare_text 0)).append h

theorem Condition.starts (condition : Condition) (text : String) :
    Starts ("if (" ++ condition.text ++ text) :=
  (Starts.append (starts_fixed _ rfl) _).append _

namespace Code

theorem fits_guard (condition : Condition) {instruction : Instruction} (h : Bare instruction.text)
    (depth : Nat) :
    Fits depth (Lines.placed depth
      ("if (" ++ condition.text ++ ") \x7b " ++ instruction.text ++ " \x7d")).toList depth := by
  have hopening : Counts 0 ") \x7b " 1 := counts_fixed _ rfl rfl
  have hclosing : Counts 1 " \x7d" 0 := counts_fixed _ rfl rfl
  have hcounts := ((condition.counts hopening).append (counts_bare h 1)).append hclosing
  exact fits_placed (((condition.starts _).append _).append _) hcounts (Nat.zero_le 1) depth

theorem fits_if (condition : Condition) (depth : Nat) :
    Fits depth (Lines.placed depth ("if (" ++ condition.text ++ ") \x7b")).toList (depth + 1) := by
  have hopening : Counts 0 ") \x7b" 1 := counts_fixed _ rfl rfl
  exact fits_placed (condition.starts _) (condition.counts hopening) (Nat.le_refl 1) depth

theorem fits_else (depth : Nat) :
    Fits (depth + 1) (Lines.placed depth "\x7d else \x7b").toList (depth + 1) := by
  have hcounts : Counts 0 " else \x7b" 1 := counts_fixed _ rfl rfl
  exact fits_placed_closing hcounts (Nat.le_refl 1) depth

/-- The lines of a block stand one level deeper. -/
theorem laid_block {instructions : List Instruction}
    (h : ∀ name ∈ instructions.flatMap Instruction.called, Bare name) (depth : Nat) :
    Laid depth (depth + 1) ((block depth instructions).map String.toList) (depth + 1) := by
  induction instructions with
  | nil => exact .nil _
  | cons first rest ih =>
    rw [List.flatMap_cons, List.forall_mem_append] at h
    have hfirst := fits_words first.starts (Instruction.bare_text h.1) (depth + 1)
    exact .cons hfirst (Nat.le_succ depth) (ih h.2)

/-- The lines of code end at the depth at which they begin, and do not go below it. -/
theorem laid {code : Code} (h : ∀ name ∈ code.called, Bare name) (depth : Nat) :
    Laid depth depth ((code.lines depth).map String.toList) depth := by
  induction code generalizing depth with
  | skip => exact .nil depth
  | blank => exact .single (.empty depth) (Nat.le_refl depth)
  | seq first second ihfirst ihsecond =>
    obtain ⟨hfirst, hsecond⟩ := List.forall_mem_append.mp h
    rw [lines, List.map_append]
    exact (ihfirst hfirst depth).append (ihsecond hsecond depth)
  | instr instruction =>
    have hline := fits_words instruction.starts (Instruction.bare_text h) depth
    exact .single hline (Nat.le_refl depth)
  | remark note =>
    have hline := fits_words note.starts note.bare_text depth
    exact .single hline (Nat.le_refl depth)
  | guard condition instruction =>
    have hline := fits_guard condition (Instruction.bare_text h) depth
    exact .single hline (Nat.le_refl depth)
  | branch condition yes no =>
    rw [called, List.flatMap_append, List.forall_mem_append] at h
    have hend : Laid depth (depth + 1) [(Lines.placed depth "\x7d").toList] depth :=
      .single (fits_end (bare_fixed "" rfl) depth) (Nat.le_refl depth)
    have hyes := laid_block h.1 depth
    cases no with
    | nil =>
      rw [lines, List.map_cons, List.map_append]
      exact .cons (fits_if condition depth) (Nat.le_succ depth) (hyes.append hend)
    | cons first rest =>
      have hno := (laid_block h.2 depth).append hend
      have helse := Laid.cons (fits_else depth) (Nat.le_succ depth) hno
      rw [lines, List.map_cons, List.map_append, List.map_cons, List.map_append]
      · exact .cons (fits_if condition depth) (Nat.le_succ depth) (hyes.append helse)
      · exact List.cons_ne_nil first rest
  | loop purpose body ih =>
    have hbody := (ih h (depth + 1)).mono (Nat.le_succ depth)
    have hend := Laid.single (purpose.fits_closing depth) (Nat.le_refl depth)
    rw [lines, List.map_cons, List.map_append]
    exact .cons (purpose.fits_opening depth) (Nat.le_succ depth) (hbody.append hend)

end Code

theorem SlotStack.laid_declaration {stack : SlotStack} (hstem : Bare stack.stem)
    (htype : Bare stack.type) (hstarts : Starts stack.type) :
    Laid 1 1 ((stack.declaration?.toList.map (Lines.placed 1)).map String.toList) 1 := by
  unfold declaration?
  split
  · exact .nil 1
  · have hnames : Bare (", ".intercalate ((List.range stack.peak).map fun i =>
        (stack.slot i).name)) := by
      apply bare_intercalate (bare_fixed ", " rfl)
      intro name hname
      obtain ⟨i, -, rfl⟩ := List.mem_map.mp hname
      exact hstem.append (bare_number i)
    have hbare := ((htype.append (bare_fixed " " rfl)).append hnames).append (bare_fixed ";" rfl)
    exact .single (fits_words (((hstarts.append _).append _).append _) hbare 1)
      (Nat.le_refl _)

/-- The lines of a compiled rule: those up to the last, after each of which a brace is open, and the
closing brace of the function. -/
theorem Session.laid_compileRule {policy : Policy} {session grown : Session} {rule : Rule}
    {function : RuleFunction} (h : session.compileRule policy rule = (.ok function, grown))
    (hnames : ∀ name ∈ rule.name :: rule.expression.ruleNames, Bare name) :
    ∃ front, function.lines.toList.map String.toList = front ++ [['\x7d']] ∧ Laid 1 0 front 1 := by
  obtain ⟨w, hgenerate⟩ := Session.generate_of_compileRule h
  obtain ⟨hstands, hresults, hpositions⟩ :=
    (rule.stands_generate policy ⟨rfl, rfl, Nat.le_refl 0, Nat.le_refl 0⟩).of_eq_ok hgenerate
  obtain ⟨hname, hcalled⟩ := List.forall_mem_cons.mp hnames
  have hfunction : function.name = rule.name := rule.returns_name policy _ _ _ hgenerate
  have hsignature : Fits 0 (RuleName.signature function.name ++ " \x7b").toList 1 := by
    have hparse := (bare_fixed "_parse" rfl).append (hfunction.symm ▸ hname)
    have hfront := (bare_fixed "INTERNAL static struct Result* " rfl).append hparse
    have hbare := hfront.append (bare_fixed "(struct Context* ctx)" rfl)
    have hstarts : Starts "INTERNAL static struct Result* " := rfl
    have hopening : Counts 0 " \x7b" 1 := counts_fixed _ rfl rfl
    have hline := fits_placed (((hstarts.append _).append _).append _)
      ((counts_bare hbare 0).append hopening) (Nat.le_refl 1) 0
    rwa [Lines.placed_zero] at hline
  have hresult : Laid 1 1
      ((function.results.declaration?.toList.map (Lines.placed 1)).map String.toList) 1 := by
    rw [hresults, hstands.results]
    exact SlotStack.laid_declaration (bare_fixed "r" rfl) (bare_fixed "ResultPtr" rfl)
      (rfl : Starts "ResultPtr")
  have hposition : Laid 1 1
      ((function.positions.declaration?.toList.map (Lines.placed 1)).map String.toList) 1 := by
    rw [hpositions, hstands.positions]
    exact SlotStack.laid_declaration (bare_fixed "p" rfl) (bare_fixed "struct Location" rfl)
      (rfl : Starts "struct Location")
  have hbody : Laid 1 1 ((function.body.lines 1).map String.toList) 1 := by
    apply Code.laid
    rw [called_compileRule h]
    exact hcalled
  have hreturn : Laid 1 1 ["  return r0;".toList] 1 :=
    .single (fits_words (rfl : Starts "return r0;") (bare_fixed _ rfl) 1)
      (Nat.le_refl _)
  have hblank : Laid 1 1 ["".toList] 1 := .single (.empty 1) (Nat.le_refl _)
  refine ⟨_, ?_, .cons hsignature (Nat.le_refl _) (hresult.append (hposition.append
    (hblank.append (hbody.append hreturn))))⟩
  rw [function.lines_eq (result_compileRule h)]
  simp only [List.map_cons, List.map_append, List.map_nil, List.append_assoc, List.cons_append,
    List.nil_append]
  rfl

/-- In a function whose rule and whose references have names without braces and line breaks, braces
are closed after they are opened, and the last of them in the last line. Every line that is not empty
is indented by two spaces for each brace that is open before it, one fewer where it begins with a
closing brace. A block ends with the first line after it that is not indented further than the line
that opened it; that line begins with a closing brace and stands as far in. -/
theorem functions_are_laid_out (policy : Policy) (session : Session) (rule : Rule)
    {function : RuleFunction} {grown : Session}
    (h : session.compileRule policy rule = (.ok function, grown))
    (hnames : ∀ name ∈ rule.name :: rule.expression.nodes.filterMap Expr.ruleName?, Bare name) :
    (∀ front, front <+: function.text.toList → 0 ≤ openBraces front) ∧
    ∀ front line rest, function.text.toList.splitOn '\n' = front ++ line :: rest →
      (openBraces (front ++ [line]).flatten = 0 ↔ rest = []) ∧
      (line ≠ [] → (indentation line : Int) =
        2 * (openBraces front.flatten - if Closes line then 1 else 0)) ∧
      (line ≠ [] → (indentation line : Int) < 2 * openBraces (front ++ [line]).flatten →
        ∃ inside closing back, rest = inside ++ closing :: back ∧
          (∀ inner ∈ inside, inner ≠ [] → indentation line < indentation inner) ∧
          Closes closing ∧ indentation closing = indentation line) := by
  obtain ⟨body, hlines, hbody⟩ := Session.laid_compileRule h hnames
  have hlast : Fits 1 ['\x7d'] 0 :=
    .closing List.not_mem_nil rfl (Nat.zero_le 1)
  have hall : Laid 0 0 (body ++ [['\x7d']]) 0 :=
    (hbody.mono (Nat.zero_le 1)).append (.single hlast (Nat.le_refl 0))
  have htext : function.text.toList = ['\n'].intercalate (body ++ [['\x7d']]) := by
    rw [RuleFunction.text, Lines.text, String.toList_intercalate, hlines]
    rfl
  have hsplit : function.text.toList.splitOn '\n' = body ++ [['\x7d']] := by
    rw [htext]
    exact List.splitOn_intercalate '\n' hall.no_break (List.append_ne_nil_of_right_ne_nil _ nofun)
  have hopen : openAfter 0 function.text.toList = some 0 := by
    rw [htext, openAfter_intercalate]
    exact hall.openAfter_eq_some
  refine ⟨fun front hfront => openBraces_nonneg hopen hfront, ?_⟩
  intro front line rest hread
  rw [hsplit] at hread
  rw [hread] at hall
  obtain ⟨before, after, hline, -, hrest, hbefore, hafter⟩ := hall.line_at
  refine ⟨⟨?_, ?_⟩, ?_, ?_⟩
  · intro hzero
    rcases List.eq_nil_or_concat rest with hnil | ⟨init, last, hconcat⟩
    · exact hnil
    · have hfront : body = front ++ line :: init := by
        rw [hconcat, List.concat_eq_append, ← List.cons_append, ← List.append_assoc] at hread
        exact (List.append_inj' hread rfl).1
      rw [hfront] at hbody
      obtain ⟨-, after', -, hpositive, -, -, hafter'⟩ := hbody.line_at
      omega
  · intro hnil
    rw [hnil] at hrest
    cases hrest
    omega
  · intro hne
    have hindented := hline.indentation_eq hne
    split
    · rename_i hcloses
      rw [if_pos hcloses] at hindented
      omega
    · rename_i hcloses
      rw [if_neg hcloses] at hindented
      omega
  · intro hne hopens
    have hlevel := hline.indentation_of_open hne (by omega)
    obtain ⟨inside, closing, back, hblock, hinside, hcloses, hclosing⟩ :=
      hrest.closed (Nat.le_refl after) (by omega)
    refine ⟨inside, closing, back, hblock, ?_, hcloses, by omega⟩
    intro inner hinner hne'
    have hdeeper := hinside inner hinner hne'
    omega

/-- A choice, a predicate and a repetition with a lower bound, inside a sequence. -/
theorem functions_are_laid_out_of_nested :
    let rule : Rule := ⟨"R", .sequence none [.choice none [.ruleRef none "A", .any none],
      .predicate none true ⟨"global", "return 0;"⟩,
      .repeated none (.range 2 none) (.text none (.ruleRef none "B"))], none⟩
    (∀ name ∈ rule.name :: rule.expression.nodes.filterMap Expr.ruleName?, Bare name) ∧
    ∃ function grown, ({} : Session).compileRule .strict rule = (.ok function, grown) ∧
      (∀ front, front <+: function.text.toList → 0 ≤ openBraces front) ∧
      ∀ front line rest, function.text.toList.splitOn '\n' = front ++ line :: rest →
        (openBraces (front ++ [line]).flatten = 0 ↔ rest = []) ∧
        (line ≠ [] → (indentation line : Int) =
          2 * (openBraces front.flatten - if Closes line then 1 else 0)) := by
  intro rule
  have hnames : ∀ name ∈ rule.name :: rule.expression.nodes.filterMap Expr.ruleName?, Bare name := by
    decide +kernel
  have hok : (({} : Session).compileRule .strict rule).1.isOk = true := by decide +kernel
  obtain ⟨function, grown, hrule⟩ := Session.eq_ok_of_isOk hok
  obtain ⟨hopen, hlines⟩ := functions_are_laid_out .strict {} rule hrule hnames
  refine ⟨hnames, function, grown, hrule, hopen, ?_⟩
  intro front line rest hread
  obtain ⟨hend, hindented, -⟩ := hlines front line rest hread
  exact ⟨hend, hindented⟩

end Backtrack
