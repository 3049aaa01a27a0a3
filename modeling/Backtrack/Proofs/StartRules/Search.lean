import Mathlib.Data.List.Forall2
import Backtrack.Proofs.Generation.Growth
import Backtrack.Proofs.Strings.Reading

/-!
# The search for a start rule

The table of start rules is sorted by the length of the names in bytes and then by their bytes. So
a binary search finds the function of every rule, whichever entry it looks at next, and nothing
under any other key.
-/

namespace Backtrack

set_option autoImplicit false

namespace StartRule

/-- A key with its length, as the search sees it. -/
abbrev Measured := Nat × Bytes

def measure (key : Bytes) : Measured := (key.length, key)

/-- Lengths are compared first, then bytes from the left. -/
def compareKeys : Measured → Measured → Ordering :=
  compareLex (compareOn Prod.fst) (compareOn Prod.snd)

instance : Std.TransCmp compareKeys :=
  inferInstanceAs (Std.TransCmp (compareLex (compareOn Prod.fst) (compareOn Prod.snd)))

theorem compareKeys_eq_iff {a b : Measured} : compareKeys a b = .eq ↔ a = b := by
  unfold compareKeys compareLex compareOn
  rw [Ordering.then_eq_eq, Std.compare_eq_iff_eq, Std.compare_eq_iff_eq, Prod.ext_iff]

theorem lexLE_iff (a b : Bytes) : Bytes.lexLE a b = true ↔ (compare a b).isLE := by
  fun_induction Bytes.lexLE a b with
  | case1 b => exact iff_of_true rfl List.isLE_compare_nil_left
  | case2 x left => exact iff_of_false nofun nofun
  | case3 x left y right ih =>
    have hcons : compare (x :: left) (y :: right) = (compare x y).then (compare left right) :=
      List.compareLex_cons_cons
    rw [hcons, Ordering.isLE_then_iff_or, Std.compare_eq_lt, Std.compare_eq_iff_eq, Bool.or_eq_true,
      Bool.and_eq_true, decide_eq_true_iff, decide_eq_true_iff, ih]

theorem le_iff (a b : String) :
    le a b = true ↔
      (compareKeys (measure (Bytes.ofString a)) (measure (Bytes.ofString b))).isLE := by
  simp only [le, compareKeys, compareLex, compareOn, measure, Ordering.isLE_then_iff_or,
    Nat.compare_eq_lt, Nat.compare_eq_eq, Bool.or_eq_true, Bool.and_eq_true, decide_eq_true_iff,
    lexLE_iff]

theorem order_perm (names : List String) : (order names).Perm names := names.mergeSort_perm le

/-- Names of different bytes are put in strict order. -/
theorem order_pairwise {names : List String} (h : (names.map Bytes.ofString).Nodup) :
    (order names).Pairwise fun a b =>
      compareKeys (measure (Bytes.ofString a)) (measure (Bytes.ofString b)) = .lt := by
  have hsorted : (order names).Pairwise fun a b => le a b = true := by
    apply List.pairwise_mergeSort
    · intro a b c hab hbc
      rw [le_iff] at *
      exact Std.TransCmp.isLE_trans hab hbc
    · intro a b
      rw [Bool.or_eq_true, le_iff, le_iff]
      by_cases hle : (compareKeys (measure (Bytes.ofString a)) (measure (Bytes.ofString b))).isLE
      · exact Or.inl hle
      · exact Or.inr (Ordering.isLE_of_eq_lt (Std.OrientedCmp.lt_of_not_isLE hle))
  have hdistinct : (order names).Pairwise fun a b => Bytes.ofString a ≠ Bytes.ofString b := by
    apply List.pairwise_map.mp
    exact ((order_perm names).map Bytes.ofString).nodup_iff.mpr h
  apply (hsorted.and hdistinct).imp
  rintro a b ⟨hle, hne⟩
  rw [le_iff, Ordering.isLE_iff_eq_lt_or_eq_eq] at hle
  apply hle.resolve_right
  intro heq
  exact hne (congrArg Prod.snd (compareKeys_eq_iff.mp heq))

/-- What a row of the table says. -/
structure Entry where
  length : Nat
  key : Bytes
  function : String

def Entry.measured (entry : Entry) : Measured := (entry.length, entry.key)

def Entry.ofName (name : String) : Entry :=
  ⟨(Bytes.ofString name).length, Bytes.ofString name, RuleName.function name⟩

/-- The entries of the table in order. -/
def entriesOf (names : List String) : List Entry := (order names).map Entry.ofName

theorem entriesOf_perm (names : List String) : (entriesOf names).Perm (names.map Entry.ofName) :=
  (order_perm names).map Entry.ofName

theorem entriesOf_pairwise {names : List String} (h : (names.map Bytes.ofString).Nodup) :
    (entriesOf names).Pairwise fun a b => compareKeys a.measured b.measured = .lt :=
  List.pairwise_map.mpr (order_pairwise h)

/-- The text of a row says what an entry says; its string is taken as C reads it. -/
def Says (row : String) (entry : Entry) : Prop :=
  ∃ inside : String, CString.read inside.toList = some entry.key ∧
    row = "    \x7b " ++ toString entry.length ++ ", \"" ++ inside ++ "\", &" ++ entry.function ++
      " \x7d"

/-- The lines say what the entries say, with a comma after every line but the last. -/
def IsTable (lines : List String) (entries : List Entry) : Prop :=
  ∃ rows last, lines = rows.map (· ++ ",") ++ [last] ∧ List.Forall₂ Says (rows ++ [last]) entries

theorem separated_append (front : List String) (last : String) :
    separated (front ++ [last]) = front.map (· ++ ",") ++ [last] := by
  induction front with
  | nil => rfl
  | cons first front ih =>
    have hcons : separated (first :: (front ++ [last])) =
        (first ++ ",") :: separated (front ++ [last]) := by
      cases front <;> rfl
    rw [List.cons_append, hcons, ih, List.map_cons, List.cons_append]

theorem entry_ne_empty (name : String) : entry name ≠ "" := by
  intro h
  have hlength := congrArg String.length h
  simp [entry] at hlength

theorem placed_of_ne {line : String} (h : line ≠ "") : Lines.placed 2 line = "    " ++ line := by
  rw [Lines.placed, if_neg h]
  rfl

theorem placed_entry_comma (name : String) :
    Lines.placed 2 (entry name ++ ",") = Lines.placed 2 (entry name) ++ "," := by
  have hne : entry name ++ "," ≠ "" := by simp
  rw [placed_of_ne hne, placed_of_ne (entry_ne_empty name), String.append_assoc]

theorem says_entry (name : String) : Says (Lines.placed 2 (entry name)) (.ofName name) := by
  refine ⟨CString.escapeString name, CString.read_escape _, ?_⟩
  rw [placed_of_ne (entry_ne_empty name), entry]
  simp only [← String.append_assoc]
  rfl

theorem isTable_table {names : List String} (h : names ≠ []) :
    IsTable ((table names).map (Lines.placed 2)) (entriesOf names) := by
  have hne : order names ≠ [] := by
    intro hnil
    have hperm := order_perm names
    rw [hnil] at hperm
    exact h (List.nil_perm.mp hperm)
  obtain ⟨front, last, horder⟩ := (List.eq_nil_or_concat' (order names)).resolve_left hne
  -- The comma is put before the line is indented and stands behind the indented row all the same.
  refine ⟨front.map fun name => Lines.placed 2 (entry name), Lines.placed 2 (entry last), ?_, ?_⟩
  · rw [table, horder, List.map_append, List.map_singleton, separated_append]
    simp [placed_entry_comma]
  · rw [entriesOf, horder, List.map_append, List.map_singleton]
    apply List.rel_append
    · exact List.forall₂_map_left_iff.mpr (List.forall₂_map_right_iff.mpr
        (List.forall₂_same.mpr fun name _ => says_entry name))
    · exact .cons (says_entry last) .nil

theorem middle_lt (pick : Nat → Nat → Nat) {low high : Nat} (h : low < high) :
    low + pick low high % (high - low) < high := by
  have hmod := Nat.mod_lt (pick low high) (Nat.sub_pos_of_lt h)
  omega

/-- A binary search among the entries from `low` up to `high`. Which of them is looked at next is
left to `pick`. -/
def searchWithin (pick : Nat → Nat → Nat) (entries : List Entry) (key : Bytes) (low high : Nat) :
    Option String :=
  if low < high then
    let middle := low + pick low high % (high - low)
    match entries[middle]? with
    | none => none
    | some entry =>
      match compareKeys (measure key) entry.measured with
      | .lt => searchWithin pick entries key low middle
      | .gt => searchWithin pick entries key (middle + 1) high
      | .eq => some entry.function
  else none
termination_by high - low
decreasing_by
  · have hmiddle := middle_lt pick ‹low < high›
    omega
  · omega

def search (pick : Nat → Nat → Nat) (entries : List Entry) (key : Bytes) : Option String :=
  searchWithin pick entries key 0 entries.length

variable {pick : Nat → Nat → Nat} {entries : List Entry} {key : Bytes}

theorem mem_of_searchWithin {low high : Nat} {function : String}
    (h : searchWithin pick entries key low high = some function) :
    ∃ entry ∈ entries, entry.measured = measure key ∧ entry.function = function := by
  fun_induction searchWithin pick entries key low high with
  | case1 => cases h
  | case2 low high hlt middle entry hentry hbelow ih => exact ih h
  | case3 low high hlt middle entry hentry habove ih => exact ih h
  | case4 low high hlt middle entry hentry hsame =>
    cases h
    exact ⟨entry, List.mem_of_getElem? hentry, (compareKeys_eq_iff.mp hsame).symm, rfl⟩
  | case5 => cases h

section

variable (hsorted : entries.Pairwise fun a b => compareKeys a.measured b.measured = .lt)
include hsorted

theorem compareKeys_of_lt {i j : Nat} {a b : Entry} (hi : entries[i]? = some a)
    (hj : entries[j]? = some b) (hij : i < j) : compareKeys a.measured b.measured = .lt := by
  obtain ⟨hilt, rfl⟩ := List.getElem?_eq_some_iff.mp hi
  obtain ⟨hjlt, rfl⟩ := List.getElem?_eq_some_iff.mp hj
  exact List.pairwise_iff_getElem.mp hsorted i j hilt hjlt hij

theorem index_eq {i j : Nat} {a b : Entry} (hi : entries[i]? = some a) (hj : entries[j]? = some b)
    (h : a.measured = b.measured) : i = j := by
  have hsame : compareKeys a.measured b.measured = .eq := compareKeys_eq_iff.mpr h
  have hback : compareKeys b.measured a.measured = .eq := compareKeys_eq_iff.mpr h.symm
  rcases Nat.lt_trichotomy i j with hij | hij | hji
  · rw [compareKeys_of_lt hsorted hi hj hij] at hsame
    cases hsame
  · exact hij
  · rw [compareKeys_of_lt hsorted hj hi hji] at hback
    cases hback

theorem index_lt {i j : Nat} {a b : Entry} (hi : entries[i]? = some a) (hj : entries[j]? = some b)
    (h : compareKeys a.measured b.measured = .lt) : i < j := by
  rcases Nat.lt_trichotomy i j with hij | rfl | hji
  · exact hij
  · cases hi.symm.trans hj
    rw [compareKeys_eq_iff.mpr rfl] at h
    cases h
  · exact absurd (compareKeys_of_lt hsorted hj hi hji) (Std.OrientedCmp.not_lt_of_lt h)

/-- The entry of a key stays between the bounds of the search until it is looked at. -/
theorem searchWithin_eq_some {low high i : Nat} {entry : Entry} (hlow : low ≤ i) (hhigh : i < high)
    (hbound : high ≤ entries.length) (hentry : entries[i]? = some entry)
    (hkey : entry.measured = measure key) :
    searchWithin pick entries key low high = some entry.function := by
  -- The induction keeps `low ≤ i < high ≤ entries.length`; each comparison is turned into one
  -- of `i` with the place that was looked at.
  fun_induction searchWithin pick entries key low high with
  | case1 low high hlt middle hnone =>
    have hmiddle : middle < high := middle_lt pick hlt
    rw [List.getElem?_eq_none_iff] at hnone
    omega
  | case2 low high hlt middle found hfound hbelow ih =>
    rw [← hkey] at hbelow
    have hmiddle : middle < entries.length := (List.getElem?_eq_some_iff.mp hfound).1
    exact ih hlow (index_lt hsorted hentry hfound hbelow) (Nat.le_of_lt hmiddle)
  | case3 low high hlt middle found hfound habove ih =>
    rw [← hkey, Std.OrientedCmp.gt_iff_lt] at habove
    exact ih (index_lt hsorted hfound hentry habove) hhigh hbound
  | case4 low high hlt middle found hfound hsame =>
    rw [compareKeys_eq_iff, ← hkey] at hsame
    have hindex := index_eq hsorted hentry hfound hsame
    rw [hindex, hfound] at hentry
    cases hentry
    rfl
  | case5 low high hnot => omega

theorem search_eq_some {entry : Entry} (hentry : entry ∈ entries)
    (hkey : entry.measured = measure key) : search pick entries key = some entry.function := by
  obtain ⟨i, hi, hget⟩ := List.mem_iff_getElem.mp hentry
  exact searchWithin_eq_some hsorted (Nat.zero_le i) hi (Nat.le_refl _)
    (List.getElem?_eq_some_iff.mpr ⟨hi, hget⟩) hkey

end

theorem search_eq_none (h : ∀ entry ∈ entries, entry.measured ≠ measure key) :
    search pick entries key = none := by
  apply Option.eq_none_iff_forall_ne_some.mpr
  intro function hfound
  obtain ⟨entry, hentry, hkey, -⟩ := mem_of_searchWithin hfound
  exact h entry hentry hkey

end StartRule

/-- The function that parses, around the lines of its table. -/
def EntryPoint.withTable (first : String) (lines : List String) : List String :=
  [EntryPoint.head, "  static struct ParseFunc funcs[] = \x7b"] ++ lines ++ ["  \x7d;"] ++
    EntryPoint.setup.map ("  " ++ ·) ++
    ["  return " ++ RuleName.function first ++ "(&ctx);", "\x7d"]

theorem EntryPoint.parse_cons (first : String) (rest : List String) :
    (EntryPoint.parse (first :: rest)).toList =
      EntryPoint.withTable first ((StartRule.table (first :: rest)).map (Lines.placed 2)) := by
  have hreturn : Lines.placed 1 ("return " ++ RuleName.function first ++ "(&ctx);") =
      "  return " ++ RuleName.function first ++ "(&ctx);" := by
    rw [Lines.placed, if_neg (by simp), String.append_assoc, String.append_assoc,
      ← String.append_assoc]
    rfl
  have hsetup : EntryPoint.setup.map (Lines.placed 1) = EntryPoint.setup.map ("  " ++ ·) := by
    decide
  have hopen : Lines.placed 1 "static struct ParseFunc funcs[] = \x7b" =
      "  static struct ParseFunc funcs[] = \x7b" := rfl
  have hclose : Lines.placed 1 "\x7d;" = "  \x7d;" := rfl
  simp [EntryPoint.parse, Lines.enter, Lines.leave, Lines.extend, Lines.push, Lines.indent,
    Lines.dedent, Lines.empty, hsetup, hreturn, hopen, hclose, EntryPoint.withTable]

/-- The functions through which a parser is called stand at its end. -/
theorem Compiled.exists_parser_output (compiled : Compiled) (config : Config) :
    ∃ front, (compiled.output config).parser = "\n".intercalate
      (front ++ (EntryPoint.parse compiled.ruleNames).toList ++ EntryPoint.wrappers) := by
  have hparser : (compiled.output config).parser =
      "\n".intercalate (compiled.parserLines config) := by
    simp [Output.parser, Compiled.output, Compiled.parserFile]
  exact ⟨_, hparser⟩

/-- In a grammar whose rules differ in the bytes of their names, the table of start rules has one
entry for each rule and no other, in strict order. The search finds every rule, and nothing under
any other key. -/
theorem every_start_rule_found {config : Config} {policy : Policy} {grammar : Grammar}
    {output : Output} {diagnostics : List Diagnostic} {first : Rule} {rest : List Rule}
    (h : grammar.generate config policy = (.ok output, diagnostics))
    (hrules : grammar.rules = first :: rest)
    (hdistinct : (grammar.rules.map fun rule => Bytes.ofString rule.name).Nodup) :
    ∃ front lines entries,
      output.parser = "\n".intercalate
        (front ++ EntryPoint.withTable first.name lines ++ EntryPoint.wrappers) ∧
      StartRule.IsTable lines entries ∧
      entries.Perm (grammar.rules.map fun rule => ⟨(Bytes.ofString rule.name).length,
        Bytes.ofString rule.name, "_parse" ++ rule.name⟩) ∧
      (entries.Pairwise fun a b => StartRule.compareKeys a.measured b.measured = .lt) ∧
      ∀ pick,
        (∀ rule ∈ grammar.rules,
          StartRule.search pick entries (Bytes.ofString rule.name) = some ("_parse" ++ rule.name)) ∧
        ∀ key, (∀ rule ∈ grammar.rules, Bytes.ofString rule.name ≠ key) →
          StartRule.search pick entries key = none := by
  obtain ⟨compiled, hcompile, rfl⟩ := Grammar.generate_ok h
  obtain ⟨functions, session, -, hcompiled⟩ := Grammar.compile_ok hcompile
  have hnames : compiled.ruleNames = grammar.rules.map Rule.name := by rw [hcompiled]
  have hcons : grammar.rules.map Rule.name = first.name :: rest.map Rule.name := by
    rw [hrules, List.map_cons]
  have hperm : (StartRule.entriesOf (grammar.rules.map Rule.name)).Perm
      (grammar.rules.map fun rule => .ofName rule.name) := by
    have hnames := StartRule.entriesOf_perm (grammar.rules.map Rule.name)
    rwa [List.map_map] at hnames
  have hsorted : (StartRule.entriesOf (grammar.rules.map Rule.name)).Pairwise fun a b =>
      StartRule.compareKeys a.measured b.measured = .lt := by
    apply StartRule.entriesOf_pairwise
    rwa [List.map_map]
  have htable : StartRule.IsTable _ (StartRule.entriesOf (grammar.rules.map Rule.name)) :=
    StartRule.isTable_table (by rw [hcons]; nofun)
  obtain ⟨front, hparser⟩ := compiled.exists_parser_output config
  rw [hnames, hcons, EntryPoint.parse_cons, ← hcons] at hparser
  refine ⟨front, _, _, hparser, htable, hperm, hsorted, fun pick => ⟨fun rule hrule => ?_,
    fun key hkey => ?_⟩⟩
  · have hentry : StartRule.Entry.ofName rule.name ∈
        StartRule.entriesOf (grammar.rules.map Rule.name) :=
      hperm.mem_iff.mpr (List.mem_map_of_mem hrule)
    exact StartRule.search_eq_some hsorted hentry rfl
  · apply StartRule.search_eq_none
    intro entry hentry heq
    obtain ⟨rule, hrule, rfl⟩ := List.mem_map.mp (hperm.mem_iff.mp hentry)
    exact hkey rule hrule (congrArg Prod.snd heq)

/-- A name of one byte beside names of two; what is not the one byte is not found. -/
theorem every_start_rule_found_of_mixed :
    let grammar : Grammar := ⟨[], [⟨"\u0100", .any none, none⟩, ⟨"ab", .any none, none⟩,
      ⟨"\u00e9", .any none, none⟩]⟩
    ∃ output entries,
      grammar.generate ⟨false, "peg-internal.h", "peg.h"⟩ .strict = (.ok output, []) ∧
      entries.length = 3 ∧ ∀ pick,
        StartRule.search pick entries [0xE9] = some "_parse\u00e9" ∧
        StartRule.search pick entries [0xC4, 0x80] = some "_parse\u0100" ∧
        StartRule.search pick entries [0xC3, 0xA9] = none := by
  intro grammar
  have hgenerate : grammar.generate ⟨false, "peg-internal.h", "peg.h"⟩ .strict = (.ok _, []) := rfl
  have hdistinct : (grammar.rules.map fun rule => Bytes.ofString rule.name).Nodup := by decide
  obtain ⟨-, -, entries, -, -, hperm, -, hsearch⟩ :=
    every_start_rule_found hgenerate rfl hdistinct
  refine ⟨_, entries, hgenerate, hperm.length_eq, fun pick => ?_⟩
  obtain ⟨hfound, hnone⟩ := hsearch pick
  refine ⟨hfound ⟨"\u00e9", .any none, none⟩ (by simp [grammar]),
    hfound ⟨"\u0100", .any none, none⟩ (by simp [grammar]), hnone _ ?_⟩
  decide

end Backtrack
