import Backtrack.Generate.Rule
import Backtrack.Proofs.Generation.Lowering
import Backtrack.Proofs.Strings.Scanning

/-!
# Uses of locals in the lines of code

A line of code is text and names of locals. Every name that stands in a line is the use of a result
slot or of a position slot, and the use says what the line does with it. The text between the names
names no local.
-/

namespace Backtrack

set_option autoImplicit false

/-- What a line does with a result slot. -/
inductive ResultRole where
  | assigned
  | freed
  /-- An array, or the item that it gets. -/
  | appended
  | tested
  | wrapped
  /-- An argument of user code. -/
  | passed
  deriving DecidableEq

/-- What a line does with a position slot. -/
inductive PositionRole where
  | saved
  | restored
  /-- The start of a match, which is only read. -/
  | measured
  deriving DecidableEq

/-- A local that a line names. -/
inductive Use where
  | result (role : ResultRole) (slot : Nat)
  | position (role : PositionRole) (index : Nat)
  deriving DecidableEq

namespace Use

def slot : Use → Slot
  | .result _ slot => .result slot
  | .position _ index => .position index

end Use

inductive Piece where
  | plain (words : String)
  | name (use : Use)
  deriving DecidableEq

namespace Piece

def render : Piece → String
  | .plain words => words
  | .name use => use.slot.name

def use? : Piece → Option Use
  | .plain _ => none
  | .name use => some use

def usesOf (pieces : List Piece) : List Use := pieces.filterMap use?

def renderAll (pieces : List Piece) : String := String.join (pieces.map render)

@[simp] theorem renderAll_nil : renderAll [] = "" := rfl

@[simp] theorem renderAll_cons (piece : Piece) (rest : List Piece) :
    renderAll (piece :: rest) = piece.render ++ renderAll rest := by
  simp [renderAll]

@[simp] theorem renderAll_append (first second : List Piece) :
    renderAll (first ++ second) = renderAll first ++ renderAll second := by
  induction first with
  | nil => simp
  | cons piece rest ih => simp [ih, String.append_assoc]

theorem renderAll_plain (words : String) : renderAll [.plain words] = words := by simp [render]

/-- Names that follow others, each after a comma. -/
def listed (use : Nat → Use) (slots : List Nat) : List Piece :=
  slots.flatMap fun slot => [.plain ", ", .name (use slot)]

theorem renderAll_listed (use : Nat → Use) (slots : List Nat) :
    renderAll (listed use slots) =
      String.join (slots.map fun slot => ", " ++ (use slot).slot.name) := by
  induction slots with
  | nil => rfl
  | cons slot rest ih =>
    simp only [listed, List.flatMap_cons, renderAll_append] at ih ⊢
    rw [ih]
    simp [render]

end Piece

open Piece

def Call.pieces (stem : String) (call : Call) : List Piece :=
  .plain (stem ++ toString call.index ++ "(ctx") :: listed (.result .passed) call.args ++
    [.plain ")"]

/-- Operands other than these name no local. -/
def Operand.pieces : Operand → List Piece
  | .wrapped start values =>
    .plain "wrap(ctx, " :: .name (.position .measured start) ::
      .plain (".offset, " ++ toString values.length) :: listed (.result .wrapped) values ++
      [.plain ")"]
  | .matchedText start => [.plain "_text(ctx, ", .name (.position .measured start), .plain ")"]
  | operand => [.plain operand.text]

def Condition.pieces : Condition → List Piece
  | .failed slot => [.plain "isFailed(", .name (.result .tested slot), .plain ")"]
  | .matched slot => [.plain "!isFailed(", .name (.result .tested slot), .plain ")"]
  | .full array max => [.name (.result .tested array), .plain ("->count >= " ++ toString max)]
  | .short array min => [.name (.result .tested array), .plain ("->count < " ++ toString min)]
  | .holds call => call.pieces FunctionTable.predicates.stem

def Instruction.pieces : Instruction → List Piece
  | .assign slot operand =>
    .name (.result .assigned slot) :: .plain " = " :: operand.pieces ++ [.plain ";"]
  | .save position =>
    [.plain "memcpy(&", .name (.position .saved position),
      .plain ", &ctx->current, sizeof(struct Location));"]
  | .rewind position =>
    [.plain "memcpy(&ctx->current, &", .name (.position .restored position),
      .plain ", sizeof(struct Location));"]
  | .free slot => [.plain "freeResult(", .name (.result .freed slot), .plain ");"]
  | .append array item =>
    [.plain "append(", .name (.result .appended array), .plain ", ",
      .name (.result .appended item), .plain ");"]
  | .act call => call.pieces FunctionTable.actions.stem ++ [.plain ";"]
  | instruction => [.plain instruction.text]

theorem Call.renderAll_pieces (stem : String) (call : Call) :
    renderAll (call.pieces stem) = call.text stem := by
  simp [pieces, text, renderAll_listed, render, Use.slot, String.append_assoc]

theorem Operand.renderAll_pieces (operand : Operand) :
    renderAll operand.pieces = operand.text := by
  cases operand with
  | wrapped start values =>
    unfold pieces text
    simp [renderAll_listed, render, Use.slot, String.append_assoc]
  | matchedText start =>
    unfold pieces text
    simp [render, Use.slot, String.append_assoc]
  | _ => exact renderAll_plain _

theorem Condition.renderAll_pieces (condition : Condition) :
    renderAll condition.pieces = condition.text := by
  cases condition with
  | holds call => exact call.renderAll_pieces _
  | _ => simp [pieces, text, render, Use.slot, String.append_assoc]

theorem Instruction.renderAll_pieces (instruction : Instruction) :
    renderAll instruction.pieces = instruction.text := by
  cases instruction with
  | assign slot operand =>
    unfold pieces text
    simp [Slot.assignment, operand.renderAll_pieces, render, Use.slot, String.append_assoc]
  | act call =>
    unfold pieces text
    simp [call.renderAll_pieces, render]
  | _ =>
    unfold pieces text
    simp [render, Use.slot, String.append_assoc]

/-- Where the code stands deeper, a line is set in by as much more. -/
theorem Lines.placed_placed (more depth : Nat) (line : String) :
    placed more (placed depth line) = placed (depth + more) line := by
  by_cases h : line = ""
  · simp [h]
  · have hplaced : String.ofList (List.replicate (2 * depth) ' ') ++ line ≠ "" := by
      intro he
      exact h (String.append_eq_empty_iff.mp he).2
    simp only [placed, if_neg h, if_neg hplaced]
    rw [← String.append_assoc, ← String.ofList_append, List.replicate_append_replicate]
    congr 3
    omega

/-- A line in pieces, so many levels deeper than the code it belongs to. -/
structure Row where
  depth : Nat
  pieces : List Piece

namespace Row

/-- The line of a row, where its code stands at a depth. -/
def line (depth : Nat) (row : Row) : String :=
  Lines.placed (depth + row.depth) (renderAll row.pieces)

def deeper (row : Row) : Row := { row with depth := row.depth + 1 }

def uses (row : Row) : List Use := usesOf row.pieces

@[simp] theorem line_deeper (depth : Nat) (row : Row) :
    row.deeper.line depth = row.line (depth + 1) := by
  have hdepth : depth + (row.depth + 1) = depth + 1 + row.depth := by omega
  simp [line, deeper, hdepth]

theorem placed_line (more depth : Nat) (row : Row) :
    Lines.placed more (row.line depth) = row.line (depth + more) := by
  have hdepth : depth + row.depth + more = depth + more + row.depth := by omega
  rw [line, line, Lines.placed_placed, hdepth]

@[simp] theorem uses_mk (depth : Nat) (pieces : List Piece) :
    uses ⟨depth, pieces⟩ = usesOf pieces := rfl

@[simp] theorem uses_deeper (row : Row) : row.deeper.uses = row.uses := rfl

end Row

namespace Code

def blockRows (instructions : List Instruction) : List Row :=
  instructions.map fun instruction => ⟨1, instruction.pieces⟩

/-- The lines of code in pieces. -/
def rows : Code → List Row
  | .skip => []
  | .seq first second => first.rows ++ second.rows
  | .instr instruction => [⟨0, instruction.pieces⟩]
  | .remark note => [⟨0, [.plain note.text]⟩]
  | .blank => [⟨0, []⟩]
  | .guard condition instruction =>
    [⟨0, .plain "if (" :: condition.pieces ++ .plain ") \x7b " :: instruction.pieces ++
      [.plain " \x7d"]⟩]
  | .branch condition yes no =>
    ⟨0, .plain "if (" :: condition.pieces ++ [.plain ") \x7b"]⟩ :: blockRows yes ++
      (if no = [] then [] else ⟨0, [.plain "\x7d else \x7b"]⟩ :: blockRows no) ++
      [⟨0, [.plain "\x7d"]⟩]
  | .loop purpose body =>
    ⟨0, [.plain purpose.opening]⟩ :: body.rows.map Row.deeper ++ [⟨0, [.plain purpose.closing]⟩]

theorem block_eq (depth : Nat) (instructions : List Instruction) :
    block depth instructions = (blockRows instructions).map (Row.line depth) := by
  simp [block, blockRows, Row.line, Instruction.renderAll_pieces]

/-- The lines of code are its rows. -/
theorem lines_eq (depth : Nat) (code : Code) :
    code.lines depth = code.rows.map (Row.line depth) := by
  induction code generalizing depth with
  | skip => rfl
  | seq first second ihfirst ihsecond => simp [lines, rows, ihfirst, ihsecond]
  | instr instruction => simp [lines, rows, Row.line, instruction.renderAll_pieces]
  | remark note => simp [lines, rows, Row.line, render]
  | blank => simp [lines, rows, Row.line]
  | guard condition instruction =>
    simp [lines, rows, Row.line, instruction.renderAll_pieces, condition.renderAll_pieces, render,
      String.append_assoc]
  | branch condition yes no =>
    cases no with
    | nil =>
      simp [lines, rows, block_eq, Row.line, condition.renderAll_pieces, render,
        String.append_assoc]
    | cons first rest =>
      simp [lines, rows, block_eq, Row.line, condition.renderAll_pieces, render,
        String.append_assoc]
  | loop purpose body ih =>
    have hbody : body.lines (depth + 1) = (body.rows.map Row.deeper).map (Row.line depth) := by
      rw [ih (depth + 1), List.map_map]
      apply List.map_congr_left
      intro row _
      exact (row.line_deeper depth).symm
    simp [lines, rows, hbody, Row.line, render]

/-- Code that stands deeper is set in by as much more. -/
theorem map_placed_lines (more depth : Nat) (code : Code) :
    (code.lines depth).map (Lines.placed more) = code.lines (depth + more) := by
  rw [lines_eq, lines_eq, List.map_map]
  exact List.map_congr_left fun row _ => row.placed_line more depth

/-- The uses of locals in code, in the order in which they are written. -/
def uses (code : Code) : List Use := code.rows.flatMap Row.uses

theorem mem_uses_iff {code : Code} {use : Use} :
    use ∈ code.uses ↔ ∃ row ∈ code.rows, .name use ∈ row.pieces := by
  have huse : ∀ piece, Piece.use? piece = some use ↔ piece = .name use := by
    intro piece
    cases piece <;> simp [Piece.use?]
  simp [uses, Row.uses, usesOf, huse]

end Code

/-- The letters that names of locals begin with. -/
def isStem (c : Char) : Bool :=
  Slot.resultStem.toList.contains c || Slot.positionStem.toList.contains c

/-- No such letter stands in front of a digit, or at the end. -/
def isQuiet : List Char → Bool
  | [] => true
  | [c] => !isStem c
  | a :: b :: rest => !(isStem a && b.isDigit) && isQuiet (b :: rest)

/-- No name of a local stands in the text, or begins at its end. -/
def Quiet (words : String) : Prop := isQuiet words.toList = true

theorem isQuiet_append {left right : List Char} (hleft : isQuiet left = true)
    (hright : isQuiet right = true) : isQuiet (left ++ right) = true := by
  fun_induction isQuiet left with
  | case1 => exact hright
  | case2 c =>
    cases right with
    | nil => exact hleft
    | cons b rest =>
      rw [Bool.not_eq_true'] at hleft
      change (!(isStem c && b.isDigit) && isQuiet (b :: rest)) = true
      rw [hleft, hright]
      rfl
  | case3 a b rest ih =>
    obtain ⟨hfirst, hrest⟩ := Bool.and_eq_true_iff.mp hleft
    exact Bool.and_eq_true_iff.mpr ⟨hfirst, ih hrest⟩

theorem Quiet.append {left right : String} (hleft : Quiet left) (hright : Quiet right) :
    Quiet (left ++ right) := by
  unfold Quiet
  rw [String.toList_append]
  exact isQuiet_append hleft hright

theorem quiet_fixed (words : String) (h : isQuiet words.toList = true) : Quiet words := h

theorem quiet_number (n : Nat) : Quiet (toString n) := by
  have hquiet : ∀ text : List Char, (∀ c ∈ text, c.isDigit = true) → isQuiet text = true := by
    intro text hall
    induction text with
    | nil => rfl
    | cons c rest ih =>
      obtain ⟨hc, hrest⟩ := List.forall_mem_cons.mp hall
      have hsingle : isStem c = false := by
        cases hstem : isStem c with
        | false => rfl
        | true =>
          rcases Bool.or_eq_true_iff.mp hstem with h | h
          · obtain rfl : c = 'r' := List.mem_singleton.mp (List.contains_iff_mem.mp h)
            cases hc
          · obtain rfl : c = 'p' := List.mem_singleton.mp (List.contains_iff_mem.mp h)
            cases hc
      have hdigit : isQuiet [c] = true := congrArg not hsingle
      exact isQuiet_append hdigit (ih hrest)
  exact hquiet _ fun _ => isDigit_of_mem_toString

theorem quiet_reference (stem : String) (h : isQuiet stem.toList = true) (index : Nat) :
    Quiet (Constants.reference stem index) :=
  ((quiet_fixed "&" rfl).append (quiet_fixed stem h)).append (quiet_number index)

/-- Text names no local. Only the name of a rule can be anything. -/
def Piece.HidesNone : Piece → Prop
  | .plain words => Quiet words ∨ ∃ rule, words = RuleName.function rule ++ "(ctx)"
  | .name _ => True

namespace Piece

theorem hidesNone_single {words : String} (h : Quiet words) :
    ∀ piece ∈ [plain words], piece.HidesNone := List.forall_mem_singleton.mpr (Or.inl h)

theorem hidesNone_around {front back : String} (use : Use) (hfront : Quiet front)
    (hback : Quiet back) : ∀ piece ∈ [plain front, name use, plain back], piece.HidesNone :=
  List.forall_mem_cons.mpr ⟨Or.inl hfront,
    List.forall_mem_cons.mpr ⟨trivial, hidesNone_single hback⟩⟩

theorem hidesNone_listed (use : Nat → Use) (slots : List Nat) :
    ∀ piece ∈ listed use slots, piece.HidesNone := by
  intro piece hmem
  obtain ⟨slot, -, hmem⟩ := List.mem_flatMap.mp hmem
  rcases List.mem_cons.mp hmem with rfl | hmem
  · exact Or.inl rfl
  · rw [List.mem_singleton.mp hmem]
    trivial

end Piece

theorem Call.hidesNone {stem : String} (h : Quiet stem) (call : Call) :
    ∀ piece ∈ call.pieces stem, piece.HidesNone := by
  have hhead : Quiet (stem ++ toString call.index ++ "(ctx") :=
    (h.append (quiet_number _)).append rfl
  unfold pieces
  rw [List.forall_mem_append, List.forall_mem_cons, List.forall_mem_singleton]
  exact ⟨⟨Or.inl hhead, hidesNone_listed _ _⟩, Or.inl rfl⟩

theorem Operand.hidesNone (operand : Operand) : ∀ piece ∈ operand.pieces, piece.HidesNone := by
  cases operand with
  | wrapped start values =>
    have hcount : Quiet (".offset, " ++ toString values.length) :=
      (quiet_fixed ".offset, " rfl).append (quiet_number _)
    simp only [pieces, List.forall_mem_append, List.forall_mem_cons]
    exact ⟨⟨Or.inl rfl, trivial, Or.inl hcount, hidesNone_listed _ _⟩, Or.inl rfl,
      List.forall_mem_nil _⟩
  | matchedText start => exact hidesNone_around _ rfl rfl
  | literal constant expected =>
    have hconstant := quiet_reference Constants.literalStem rfl constant
    have hexpected := quiet_reference Constants.expectedStem rfl expected
    have hfront := (quiet_fixed "parseLiteral(ctx, " rfl).append hconstant
    have hmiddle := (hfront.append (quiet_fixed ", " rfl)).append hexpected
    exact hidesNone_single (hmiddle.append (quiet_fixed ")" rfl))
  | charClass constant expected inverted =>
    have hconstant := quiet_reference Constants.classStem rfl constant
    have hexpected := quiet_reference Constants.expectedStem rfl expected
    have hflag : Quiet (if inverted then "1" else "0") := by cases inverted <;> rfl
    have hfront := (quiet_fixed "parseCharClass(ctx, " rfl).append hconstant
    have hmiddle := (hfront.append (quiet_fixed ", " rfl)).append hexpected
    have hback := (hmiddle.append (quiet_fixed ", " rfl)).append hflag
    exact hidesNone_single (hback.append (quiet_fixed ")" rfl))
  | failure expected =>
    have hexpected := quiet_reference Constants.expectedStem rfl expected
    have hfront := (quiet_fixed "fail(ctx, " rfl).append hexpected
    exact hidesNone_single (hfront.append (quiet_fixed ")" rfl))
  | rule name => exact List.forall_mem_singleton.mpr (Or.inr ⟨name, rfl⟩)
  | failed => exact hidesNone_single rfl
  | noMatch => exact hidesNone_single rfl
  | emptyArray => exact hidesNone_single rfl
  | anyByte => exact hidesNone_single rfl

theorem Condition.hidesNone (condition : Condition) :
    ∀ piece ∈ condition.pieces, piece.HidesNone := by
  cases condition with
  | failed slot => exact hidesNone_around _ rfl rfl
  | matched slot => exact hidesNone_around _ rfl rfl
  | full array max =>
    have hcount : Quiet ("->count >= " ++ toString max) :=
      (quiet_fixed "->count >= " rfl).append (quiet_number max.toNat)
    exact List.forall_mem_cons.mpr ⟨trivial, hidesNone_single hcount⟩
  | short array min =>
    have hcount : Quiet ("->count < " ++ toString min) :=
      (quiet_fixed "->count < " rfl).append (quiet_number min.toNat)
    exact List.forall_mem_cons.mpr ⟨trivial, hidesNone_single hcount⟩
  | holds call => exact call.hidesNone (quiet_fixed FunctionTable.predicates.stem rfl)

theorem Instruction.hidesNone (instruction : Instruction) :
    ∀ piece ∈ instruction.pieces, piece.HidesNone := by
  cases instruction with
  | assign slot operand =>
    simp only [pieces, List.forall_mem_append, List.forall_mem_cons]
    exact ⟨⟨trivial, Or.inl rfl, operand.hidesNone⟩, Or.inl rfl, List.forall_mem_nil _⟩
  | save position => exact hidesNone_around _ rfl rfl
  | rewind position => exact hidesNone_around _ rfl rfl
  | free slot => exact hidesNone_around _ rfl rfl
  | append array item =>
    simp only [pieces, List.forall_mem_cons]
    exact ⟨Or.inl rfl, trivial, Or.inl rfl, trivial, Or.inl rfl, List.forall_mem_nil _⟩
  | act call =>
    simp only [pieces, List.forall_mem_append, List.forall_mem_cons]
    exact ⟨call.hidesNone (quiet_fixed FunctionTable.actions.stem rfl), Or.inl rfl,
      List.forall_mem_nil _⟩
  | mute => exact hidesNone_single rfl
  | unmute => exact hidesNone_single rfl
  | leave => exact hidesNone_single rfl

theorem Remark.quiet (note : Remark) : Quiet note.text := by
  cases note with
  | element number =>
    exact ((quiet_fixed "/*element " rfl).append (quiet_number number)).append rfl
  | alternative number =>
    exact ((quiet_fixed "/*alternative " rfl).append (quiet_number number)).append rfl

/-- The row names no local beside its uses. -/
def Row.HidesNone (row : Row) : Prop := ∀ piece ∈ row.pieces, piece.HidesNone

namespace Code

theorem hidesNone_blockRows (instructions : List Instruction) :
    ∀ row ∈ blockRows instructions, row.HidesNone := by
  intro row hrow
  obtain ⟨instruction, -, rfl⟩ := List.mem_map.mp hrow
  exact instruction.hidesNone

theorem hidesNone_rows (code : Code) : ∀ row ∈ code.rows, row.HidesNone := by
  induction code with
  | skip => exact List.forall_mem_nil _
  | seq first second ihfirst ihsecond => exact List.forall_mem_append.mpr ⟨ihfirst, ihsecond⟩
  | instr instruction => exact List.forall_mem_singleton.mpr instruction.hidesNone
  | remark note => exact List.forall_mem_singleton.mpr (hidesNone_single note.quiet)
  | blank => exact List.forall_mem_singleton.mpr (List.forall_mem_nil _)
  | guard condition instruction =>
    rw [rows, List.forall_mem_singleton]
    simp only [Row.HidesNone, List.forall_mem_append, List.forall_mem_cons]
    exact ⟨⟨⟨Or.inl rfl, condition.hidesNone⟩, Or.inl rfl, instruction.hidesNone⟩,
      Or.inl rfl, List.forall_mem_nil _⟩
  | branch condition yes no =>
    have hif : Row.HidesNone ⟨0, .plain "if (" :: condition.pieces ++ [.plain ") \x7b"]⟩ :=
      List.forall_mem_append.mpr
        ⟨List.forall_mem_cons.mpr ⟨Or.inl rfl, condition.hidesNone⟩, hidesNone_single rfl⟩
    have hother : ∀ row ∈ (if no = [] then [] else ⟨0, [.plain "\x7d else \x7b"]⟩ :: blockRows no),
        row.HidesNone := by
      split
      · exact List.forall_mem_nil _
      · exact List.forall_mem_cons.mpr ⟨hidesNone_single rfl, hidesNone_blockRows no⟩
    rw [rows, List.forall_mem_append, List.forall_mem_append, List.forall_mem_cons,
      List.forall_mem_singleton]
    exact ⟨⟨⟨hif, hidesNone_blockRows yes⟩, hother⟩, hidesNone_single rfl⟩
  | loop purpose body ih =>
    have hopening : Quiet purpose.opening := by cases purpose <;> rfl
    have hclosing : Quiet purpose.closing := by cases purpose <;> rfl
    have hbody : ∀ row ∈ body.rows.map Row.deeper, row.HidesNone := by
      intro row hrow
      obtain ⟨inner, hinner, rfl⟩ := List.mem_map.mp hrow
      exact ih inner hinner
    rw [rows, List.forall_mem_append, List.forall_mem_cons, List.forall_mem_singleton]
    exact ⟨⟨hidesNone_single hopening, hbody⟩, hidesNone_single hclosing⟩

end Code

namespace Piece

@[simp] theorem usesOf_nil : usesOf [] = [] := rfl

@[simp] theorem usesOf_plain (words : String) (rest : List Piece) :
    usesOf (.plain words :: rest) = usesOf rest := rfl

@[simp] theorem usesOf_name (use : Use) (rest : List Piece) :
    usesOf (.name use :: rest) = use :: usesOf rest := rfl

@[simp] theorem usesOf_append (first second : List Piece) :
    usesOf (first ++ second) = usesOf first ++ usesOf second := List.filterMap_append

@[simp] theorem usesOf_listed (use : Nat → Use) (slots : List Nat) :
    usesOf (listed use slots) = slots.map use := by
  induction slots with
  | nil => rfl
  | cons slot rest ih => exact congrArg (use slot :: ·) ih

end Piece

def Operand.uses : Operand → List Use
  | .wrapped start values => .position .measured start :: values.map (.result .wrapped)
  | .matchedText start => [.position .measured start]
  | _ => []

def Condition.uses : Condition → List Use
  | .failed slot | .matched slot | .full slot _ | .short slot _ => [.result .tested slot]
  | .holds call => call.args.map (.result .passed)

def Instruction.uses : Instruction → List Use
  | .assign slot operand => .result .assigned slot :: operand.uses
  | .save position => [.position .saved position]
  | .rewind position => [.position .restored position]
  | .free slot => [.result .freed slot]
  | .append array item => [.result .appended array, .result .appended item]
  | .act call => call.args.map (.result .passed)
  | .mute | .unmute | .leave => []

@[simp] theorem Call.usesOf_pieces (stem : String) (call : Call) :
    usesOf (call.pieces stem) = call.args.map (.result .passed) := by
  simp [pieces]

@[simp] theorem Operand.usesOf_pieces (operand : Operand) :
    usesOf operand.pieces = operand.uses := by
  cases operand with
  | wrapped start values => simp [pieces, uses]
  | _ => rfl

@[simp] theorem Condition.usesOf_pieces (condition : Condition) :
    usesOf condition.pieces = condition.uses := by
  cases condition with
  | holds call => exact call.usesOf_pieces _
  | _ => rfl

@[simp] theorem Instruction.usesOf_pieces (instruction : Instruction) :
    usesOf instruction.pieces = instruction.uses := by
  cases instruction with
  | assign slot operand => simp [pieces, uses]
  | act call => simp [pieces, uses]
  | _ => rfl

namespace Code

theorem uses_blockRows (instructions : List Instruction) :
    (blockRows instructions).flatMap Row.uses = instructions.flatMap Instruction.uses := by
  simp [blockRows, List.flatMap_map]

@[simp] theorem uses_skip : uses .skip = [] := rfl

@[simp] theorem uses_remark (note : Remark) : uses (.remark note) = [] := rfl

@[simp] theorem uses_blank : uses .blank = [] := rfl

@[simp] theorem uses_append (first second : Code) :
    (first ++ second).uses = first.uses ++ second.uses := List.flatMap_append

@[simp] theorem uses_instr (instruction : Instruction) :
    uses (.instr instruction) = instruction.uses := by
  simp [uses, rows]

@[simp] theorem uses_guard (condition : Condition) (instruction : Instruction) :
    uses (.guard condition instruction) = condition.uses ++ instruction.uses := by
  simp [uses, rows]

@[simp] theorem uses_branch (condition : Condition) (yes no : List Instruction) :
    uses (.branch condition yes no) =
      condition.uses ++ yes.flatMap Instruction.uses ++ no.flatMap Instruction.uses := by
  cases no with
  | nil => simp [uses, rows, uses_blockRows]
  | cons first rest => simp [uses, rows, uses_blockRows]

@[simp] theorem uses_loop (purpose : Loop) (body : Code) :
    uses (.loop purpose body) = body.uses := by
  simp [uses, rows, List.flatMap_map]

end Code

end Backtrack
