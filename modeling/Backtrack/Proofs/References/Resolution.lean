import Mathlib.Data.List.Forall2
import Backtrack.Proofs.Generation.ClosedForm
import Backtrack.Proofs.Generation.Growth
import Backtrack.Proofs.Layout.Namespaces
import Backtrack.Proofs.References.Sites
import Backtrack.Proofs.Strings.Reading

/-!
# References resolve

Numbers are given out while the tables still grow, and the tables are printed when they are
complete. What a number stands for in the printed tables is still what the site asked for.
-/

namespace Backtrack

set_option autoImplicit false

namespace Constants

end Constants

open Constants

namespace Constants

theorem line_charClass (singles : Bytes) (ranges : List (UInt8 × UInt8)) (number : Nat) :
    "static " ++ "struct CharClass" ++ " " ++ ("c" ++ toString number) ++ " = " ++
        charClass singles ranges ++ ";" =
      "static struct CharClass c" ++ toString number ++ " = \x7b MAKE_LENGTHS(" ++
        toString singles.length ++ ", " ++ toString ranges.length ++ "), \"" ++
        CString.escape singles ++ "\", \"" ++ CString.escape (bounds ranges) ++ "\" \x7d;" := by
  have hhead : "static struct CharClass c" =
      "static " ++ ("struct CharClass" ++ (" " ++ "c")) := rfl
  have hopen : " = \x7b MAKE_LENGTHS(" = " = " ++ ("\x7b " ++ "MAKE_LENGTHS(") := rfl
  have hmiddle : "), \"" = "), " ++ "\"" := rfl
  have hcomma : "\", \"" = "\"" ++ (", " ++ "\"") := rfl
  have hclose : "\" \x7d;" = "\"" ++ (" \x7d" ++ ";") := rfl
  rw [hhead, hopen, hmiddle, hcomma, hclose]
  simp only [charClass, braced, quoted, String.append_assoc]

end Constants

namespace Operand

theorem text_literal (constant expected : Nat) :
    (literal constant expected).text =
      "parseLiteral(ctx, &l" ++ toString constant ++ ", &e" ++ toString expected ++ ")" := by
  have htext : (literal constant expected).text = "parseLiteral(ctx, " ++
      ("&" ++ "l" ++ toString constant) ++ ", " ++ ("&" ++ "e" ++ toString expected) ++ ")" := rfl
  have hhead : "parseLiteral(ctx, &l" = "parseLiteral(ctx, " ++ ("&" ++ "l") := rfl
  have hcomma : ", &e" = ", " ++ ("&" ++ "e") := rfl
  rw [htext, hhead, hcomma]
  simp only [String.append_assoc]

theorem text_charClass (constant expected : Nat) (inverted : Bool) :
    (charClass constant expected inverted).text =
      "parseCharClass(ctx, &c" ++ toString constant ++ ", &e" ++ toString expected ++ ", " ++
        (if inverted then "1" else "0") ++ ")" := by
  have htext : (charClass constant expected inverted).text = "parseCharClass(ctx, " ++
      ("&" ++ "c" ++ toString constant) ++ ", " ++ ("&" ++ "e" ++ toString expected) ++ ", " ++
      (if inverted then "1" else "0") ++ ")" := rfl
  have hhead : "parseCharClass(ctx, &c" = "parseCharClass(ctx, " ++ ("&" ++ "c") := rfl
  have hcomma : ", &e" = ", " ++ ("&" ++ "e") := rfl
  rw [htext, hhead, hcomma]
  simp only [String.append_assoc]

end Operand

theorem getElem?_idxOf {α : Type} [DecidableEq α] {items : List α} {item : α}
    (h : items.idxOf item < items.length) : items[items.idxOf item]? = some item := by
  rw [List.getElem?_eq_getElem h, List.getElem_idxOf]

theorem ConstantTable.definitions_getElem? {table : ConstantTable} {number : Nat} {value : String}
    (h : table.values.toList[number]? = some value) :
    table.definitions[number]? =
      some ("static " ++ table.type ++ " " ++ (table.stem ++ toString number) ++ " = " ++ value ++
        ";") := by
  unfold definitions
  rw [List.getElem?_map, List.getElem?_zipIdx, h, Nat.zero_add]
  rfl

namespace Session.Headed

variable {tables : Session} (h : tables.Headed)
include h

theorem definition_charClass {singles : Bytes} {ranges : List (UInt8 × UInt8)}
    (hn : tables.classNumber singles ranges < tables.classes.length) :
    tables.constants.classes.definitions[tables.classNumber singles ranges]? =
      some ("static struct CharClass c" ++ toString (tables.classNumber singles ranges) ++
        " = \x7b MAKE_LENGTHS(" ++ toString singles.length ++ ", " ++ toString ranges.length ++
        "), \"" ++ CString.escape singles ++ "\", \"" ++ CString.escape (bounds ranges) ++
        "\" \x7d;") := by
  have hentry : tables.constants.classes.values.toList[tables.classNumber singles ranges]? =
      some (charClass singles ranges) := getElem?_idxOf hn
  rw [ConstantTable.definitions_getElem? hentry, ← line_charClass, h.classes]
  rfl

end Session.Headed

namespace Compiled

end Compiled

end Backtrack
