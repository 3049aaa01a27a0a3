import Backtrack.Code.Basic
import Backtrack.Constants
import Backtrack.Lines

/-!
# Code as C text
-/

namespace Backtrack

set_option autoImplicit false

namespace RuleName

/-- The C function of a rule. -/
def function (name : String) : String := "_parse" ++ name

/-- The prototype of a rule's function, without what ends it. -/
def signature (name : String) : String :=
  "INTERNAL static struct Result* " ++ function name ++ "(struct Context* ctx)"

end RuleName

/-- The address of a constant. -/
def Constants.reference (stem : String) (index : Nat) : String := "&" ++ stem ++ toString index

def Operand.text : Operand → String
  | .failed => "&FAILED"
  | .noMatch => "&NIL"
  | .emptyArray => "createArray()"
  | .literal constant expected =>
    "parseLiteral(ctx, " ++ Constants.reference Constants.literalStem constant ++ ", " ++
      Constants.reference Constants.expectedStem expected ++ ")"
  | .charClass constant expected inverted =>
    "parseCharClass(ctx, " ++ Constants.reference Constants.classStem constant ++ ", " ++
      Constants.reference Constants.expectedStem expected ++ ", " ++
      (if inverted then "1" else "0") ++ ")"
  | .anyByte => "parseAny(ctx)"
  | .rule name => RuleName.function name ++ "(ctx)"
  | .failure expected =>
    "fail(ctx, " ++ Constants.reference Constants.expectedStem expected ++ ")"
  | .wrapped start values =>
    "wrap(ctx, " ++ (Slot.position start).name ++ ".offset, " ++ toString values.length ++
      String.join (values.map fun value => ", " ++ (Slot.result value).name) ++ ")"
  | .matchedText start => "_text(ctx, " ++ (Slot.position start).name ++ ")"

def Condition.text : Condition → String
  | .failed slot => "isFailed(" ++ (Slot.result slot).name ++ ")"
  | .matched slot => "!isFailed(" ++ (Slot.result slot).name ++ ")"
  | .full array max => (Slot.result array).name ++ "->count >= " ++ toString max
  | .short array min => (Slot.result array).name ++ "->count < " ++ toString min
  | .holds call => call.text FunctionTable.predicates.stem

def Instruction.text : Instruction → String
  | .assign slot operand => (Slot.result slot).assignment operand.text
  | .save position =>
    "memcpy(&" ++ (Slot.position position).name ++ ", &ctx->current, sizeof(struct Location));"
  | .rewind position =>
    "memcpy(&ctx->current, &" ++ (Slot.position position).name ++ ", sizeof(struct Location));"
  | .mute => "++ctx->failInfo.silent;"
  | .unmute => "--ctx->failInfo.silent;"
  | .free slot => "freeResult(" ++ (Slot.result slot).name ++ ");"
  | .append array item =>
    "append(" ++ (Slot.result array).name ++ ", " ++ (Slot.result item).name ++ ");"
  | .act call => call.text FunctionTable.actions.stem ++ ";"
  | .leave => "break;"

namespace Loop

def opening : Loop → String
  | .sequence => "do \x7b/*sequence*/"
  | .choice => "do \x7b/*choice*/"
  | .repetition => "do \x7b"

def closing : Loop → String
  | .sequence => "\x7d while (0);/*sequence*/"
  | .choice => "\x7d while (0);/*choice*/"
  | .repetition => "\x7d while (1);"

end Loop

def Remark.text : Remark → String
  | .element number => "/*element " ++ toString number ++ "*/"
  | .alternative number => "/*alternative " ++ toString number ++ "*/"

namespace Code

/-- The lines of a block of instructions one level below `depth`. -/
def block (depth : Nat) (instructions : List Instruction) : List String :=
  instructions.map fun instruction => Lines.placed (depth + 1) instruction.text

/-- The lines of code at a depth. -/
def lines (depth : Nat) : Code → List String
  | .skip => []
  | .seq first second => lines depth first ++ lines depth second
  | .instr instruction => [Lines.placed depth instruction.text]
  | .remark note => [Lines.placed depth note.text]
  | .blank => [""]
  | .guard condition instruction =>
    [Lines.placed depth
      ("if (" ++ condition.text ++ ") \x7b " ++ instruction.text ++ " \x7d")]
  | .branch condition yes [] =>
    Lines.placed depth ("if (" ++ condition.text ++ ") \x7b") ::
      (block depth yes ++ [Lines.placed depth "\x7d"])
  | .branch condition yes no =>
    Lines.placed depth ("if (" ++ condition.text ++ ") \x7b") ::
      (block depth yes ++ Lines.placed depth "\x7d else \x7b" ::
        (block depth no ++ [Lines.placed depth "\x7d"]))
  | .loop purpose body =>
    Lines.placed depth purpose.opening ::
      (lines (depth + 1) body ++ [Lines.placed depth purpose.closing])

end Code

end Backtrack
