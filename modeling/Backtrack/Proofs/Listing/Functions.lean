import Backtrack.Proofs.Generation.Returns
import Backtrack.Proofs.Listing.Lines
import Backtrack.Proofs.Locals.Declarations

/-!
# Reading rule functions

The lines of a function are its prototype, the declarations of its locals, its code and the return
of a result slot. The printed function of a rule is read as that function, with its code made plain.
-/

namespace Backtrack

set_option autoImplicit false

namespace Listing

open CString CString.Scan

/-- A rule function as its lines say it. -/
structure Function where
  name : String
  body : Code
  /-- The slot whose value is returned. -/
  result : Nat

/-- The name of the rule in the first line of its function. -/
def prototype? (line : String) : Option String := do
  let text ← line.toList.dropPrefix? "INTERNAL static struct Result* ".toList
  let text ← text.dropPrefix? "_parse".toList
  let text ← text.dropSuffix? " \x7b".toList
  let name ← text.dropSuffix? "(struct Context* ctx)".toList
  return String.ofList name

/-- The slot that a line returns. -/
def returned? (line : String) : Option Nat := fromLine (do word "return "; result ";") line

def function? : List String → Option Function
  | [] => none
  | first :: rest =>
    match rest.reverse with
    | closing :: last :: inside => do
      let name ← prototype? first
      let body ← code? inside.reverse
      let result ← returned? last
      if closing = "\x7d" then some ⟨name, body, result⟩ else none
    | _ => none

theorem prototype?_signature (name : String) :
    prototype? (RuleName.signature name ++ " \x7b") = some name := by
  have htext : (RuleName.signature name ++ " \x7b").toList =
      "INTERNAL static struct Result* ".toList ++ ("_parse".toList ++
        ((name.toList ++ "(struct Context* ctx)".toList) ++ " \x7b".toList)) := by
    unfold RuleName.signature RuleName.function
    simp only [String.toList_append, List.append_assoc]
  unfold prototype?
  simp only [htext, dropPrefix?_append, dropSuffix?_append, Option.bind_eq_bind, Option.bind_some,
    String.ofList_toList]
  rfl

theorem toList_declaration (type : String) (slots : List Slot) :
    (Slot.declaration type slots).toList = type.toList ++
      ((" ".toList ++ (", ".intercalate (slots.map Slot.name)).toList) ++ ";".toList) := by
  simp only [Slot.declaration, String.toList_append, List.append_assoc]

theorem phrase_results (slots : List Slot) :
    phrase (Slot.declaration "ResultPtr" slots).toList = some (.nothing, []) := by
  have hchoose := @choose_of_getElem? _ _ blocks_distinct
  rw [toList_declaration]
  refine (orElse_of_none rfl _).trans ((hchoose 5 rfl idle _).trans ?_)
  exact declaration_printed _

theorem phrase_positions (slots : List Slot) :
    phrase (Slot.declaration "struct Location" slots).toList = some (.nothing, []) := by
  have hchoose := @choose_of_getElem? _ _ blocks_distinct
  rw [toList_declaration]
  refine (orElse_of_none rfl _).trans ((hchoose 6 rfl idle _).trans ?_)
  exact declaration_printed _

theorem function?_append {first last : String} {inside : List String} {name : String} {body : Code}
    {result : Nat} (hname : prototype? first = some name) (hbody : code? inside = some body)
    (hresult : returned? last = some result) :
    function? (first :: (inside ++ [last, "\x7d"])) = some ⟨name, body, result⟩ := by
  have hreverse : (inside ++ [last, "\x7d"]).reverse = "\x7d" :: last :: inside.reverse := by
    simp
  rw [function?, hreverse]
  dsimp only
  rw [List.reverse_reverse, hname, hbody, hresult]
  rfl

end Listing

open Listing

/-- The lines of a compiled rule are read as its function. -/
theorem Session.function?_compileRule {policy : Policy} {session grown : Session} {rule : Rule}
    {function : RuleFunction} (h : session.compileRule policy rule = (.ok function, grown)) :
    function? function.lines.toList = some ⟨rule.name, function.body.plain, function.result⟩ := by
  obtain ⟨w, hgenerate⟩ := generate_of_compileRule h
  have hname : function.name = rule.name := rule.returns_name policy _ _ _ hgenerate
  have hreader : (Reader.block [] .skip).lines (Lines.placed 1 (Slot.declaration "ResultPtr"
      ((List.range rule.expression.resultSpan).map .result)) ::
      (if rule.expression.positionSpan = 0 then []
        else [Lines.placed 1 (Slot.declaration "struct Location"
          ((List.range rule.expression.positionSpan).map .position))]) ++
      "" :: function.body.lines 1) = some (.block [] function.body.plain) := by
    have hresults := Reader.line_placed 1 (.block [] .skip)
      (phrase_results ((List.range rule.expression.resultSpan).map .result))
    have hpositions := Reader.line_placed 1 (.block [] .skip)
      (phrase_positions ((List.range rule.expression.positionSpan).map .position))
    have hblank : (Reader.block [] .skip).lines ("" :: function.body.lines 1) =
        some (.block [] function.body.plain) := Reader.lines_printed [] .skip 1 function.body
    rw [List.cons_append, Reader.lines_cons, hresults]
    change (Reader.block [] .skip).lines (_ ++ _) = _
    split
    · exact hblank
    · rw [List.singleton_append, Reader.lines_cons, hpositions]
      exact hblank
  rw [lines_compileRule h, hname, result_compileRule h]
  exact function?_append (prototype?_signature rule.name) (code?_of_lines hreader) rfl

end Backtrack
