import Backtrack.Grammar.ClassText

/-!
# Reading the text of a class

The text of a class is read in two steps: characters and marks first, then parts and flags. A mark
after a backslash is a character like any other. A text can be read exactly when it is the text
that some class is given, and it tells which class that is.
-/

namespace Backtrack

set_option autoImplicit false

/-- A character of a class, or a mark around the characters. -/
inductive ClassToken where
  | char (c : Char)
  | caret
  | dash
  | close
  deriving DecidableEq

namespace ClassToken

/-- The character that is written as a backslash and another one. -/
def escaped? : Char → Option Char
  | '\\' => some '\\'
  | ']' => some ']'
  | '^' => some '^'
  | '-' => some '-'
  | 'n' => some '\n'
  | 'r' => some '\r'
  | 't' => some '\t'
  | _ => none

/-- What a character without a backslash is. Characters that have an escape do not stand there. -/
def plain? : Char → Option ClassToken
  | ']' => some .close
  | '^' => some .caret
  | '-' => some .dash
  | '\\' | '\n' | '\r' | '\t' => none
  | c => some (.char c)

def scan? : List Char → Option (List ClassToken)
  | [] => some []
  | '\\' :: c :: rest => (escaped? c).bind fun d => (scan? rest).map (.char d :: ·)
  | c :: rest => (plain? c).bind fun token => (scan? rest).map (token :: ·)

/-- Parts up to the closing bracket, and whether case is ignored. -/
def parts? : List ClassToken → Option (List ClassPart × Bool)
  | [.close] => some ([], false)
  | [.close, .char 'i'] => some ([], true)
  | .char low :: .dash :: .char high :: rest =>
    (parts? rest).map fun (parts, ignoreCase) => (.range low high :: parts, ignoreCase)
  | .char c :: rest => (parts? rest).map fun (parts, ignoreCase) => (.single c :: parts, ignoreCase)
  | _ => none

/-- The parts, whether the class is inverted, and whether case is ignored. -/
def class? : List ClassToken → Option (List ClassPart × Bool × Bool)
  | .caret :: rest => (parts? rest).map fun (parts, ignoreCase) => (parts, true, ignoreCase)
  | tokens => (parts? tokens).map fun (parts, ignoreCase) => (parts, false, ignoreCase)

end ClassToken

/-- Reads the text of a class. -/
def CharClass.read? (text : String) : Option (List ClassPart × Bool × Bool) :=
  match text.toList with
  | '[' :: rest => (ClassToken.scan? rest).bind ClassToken.class?
  | _ => none

namespace ClassToken

def written : ClassToken → List Char
  | .char c => ClassPart.writtenChar c
  | .caret => ['^']
  | .dash => ['-']
  | .close => [']']

/-- A character is written after a backslash, or as it is. -/
theorem writtenChar_cases (c : Char) :
    (∃ mark, ClassPart.writtenChar c = ['\\', mark] ∧ escaped? mark = some c) ∨
    (ClassPart.writtenChar c = [c] ∧ c ≠ '\\' ∧ plain? c = some (.char c)) := by
  unfold ClassPart.writtenChar
  split
  · rename_i hmark
    refine Or.inl ⟨c, rfl, ?_⟩
    rcases hmark with h | h | h | h
    all_goals rw [h]; rfl
  · rename_i hmark
    split
    · rename_i h
      exact Or.inl ⟨'n', rfl, by rw [h]; rfl⟩
    · split
      · rename_i h
        exact Or.inl ⟨'r', rfl, by rw [h]; rfl⟩
      · split
        · rename_i h
          exact Or.inl ⟨'t', rfl, by rw [h]; rfl⟩
        · refine Or.inr ⟨rfl, fun h => hmark (Or.inl h), ?_⟩
          unfold plain?
          split <;> simp_all

theorem writtenChar_of_escaped? {mark c : Char} (h : escaped? mark = some c) :
    ClassPart.writtenChar c = ['\\', mark] := by
  unfold escaped? at h
  split at h
  all_goals cases h
  all_goals rfl

theorem written_of_plain? {c : Char} {token : ClassToken} (h : plain? c = some token) :
    token.written = [c] := by
  unfold plain? at h
  split at h
  case h_8 =>
    cases h
    simp_all [written, ClassPart.writtenChar]
  all_goals cases h
  all_goals rfl

theorem scan?_plain {c : Char} (h : c ≠ '\\') (rest : List Char) :
    scan? (c :: rest) = (plain? c).bind fun token => (scan? rest).map (token :: ·) :=
  scan?.eq_3 c rest fun _ _ hc _ => h hc

theorem scan?_written (token : ClassToken) (rest : List Char) :
    scan? (token.written ++ rest) = (scan? rest).map (token :: ·) := by
  cases token with
  | char c =>
    rw [written]
    rcases writtenChar_cases c with ⟨mark, hwritten, hmark⟩ | ⟨hwritten, hne, hplain⟩
    · rw [hwritten, List.cons_append, List.cons_append, List.nil_append, scan?, hmark]
      rfl
    · rw [hwritten, List.singleton_append, scan?_plain hne, hplain]
      rfl
  | caret => rfl
  | dash => rfl
  | close => rfl

/-- The tokens of a text are those that are written so. -/
theorem scan?_eq_some_iff {text : List Char} {tokens : List ClassToken} :
    scan? text = some tokens ↔ text = tokens.flatMap written := by
  constructor
  · intro h
    fun_induction scan? text generalizing tokens with
    | case1 =>
      cases h
      rfl
    | case2 mark rest ih =>
      obtain ⟨c, hmark, hrest⟩ := Option.bind_eq_some_iff.mp h
      obtain ⟨others, hothers, rfl⟩ := Option.map_eq_some_iff.mp hrest
      rw [List.flatMap_cons, ← ih hothers, written, writtenChar_of_escaped? hmark]
      rfl
    | case3 c rest _ ih =>
      obtain ⟨token, hplain, hrest⟩ := Option.bind_eq_some_iff.mp h
      obtain ⟨others, hothers, rfl⟩ := Option.map_eq_some_iff.mp hrest
      rw [List.flatMap_cons, ← ih hothers, written_of_plain? hplain]
      rfl
  · intro h
    subst h
    induction tokens with
    | nil => rfl
    | cons token rest ih => rw [List.flatMap_cons, scan?_written, ih, Option.map_some]

/-- What follows the parts. -/
def closing (ignoreCase : Bool) : List ClassToken :=
  .close :: if ignoreCase then [.char 'i'] else []

end ClassToken

namespace ClassPart

def tokens : ClassPart → List ClassToken
  | .single c => [.char c]
  | .range low high => [.char low, .dash, .char high]

theorem written_eq (part : ClassPart) : part.written = part.tokens.flatMap ClassToken.written := by
  cases part with
  | single c => simp [written, tokens, ClassToken.written]
  | range low high => simp [written, tokens, ClassToken.written]

end ClassPart

namespace ClassToken

/-- No range mark stands in front of a part, so that one after a character makes a range. -/
theorem parts?_single (c : Char) {rest : List ClassToken} (h : rest.head? ≠ some .dash) :
    parts? (.char c :: rest) =
      (parts? rest).map fun (parts, ignoreCase) => (.single c :: parts, ignoreCase) := by
  apply parts?.eq_4
  intro high others hrest
  rw [hrest] at h
  exact h rfl

theorem parts?_eq_some_iff {tokens : List ClassToken} {parts : List ClassPart}
    {ignoreCase : Bool} :
    parts? tokens = some (parts, ignoreCase) ↔
      tokens = parts.flatMap ClassPart.tokens ++ closing ignoreCase := by
  constructor
  · intro h
    fun_induction parts? tokens generalizing parts with
    | case1 =>
      cases h
      rfl
    | case2 =>
      cases h
      rfl
    | case3 low high rest ih =>
      obtain ⟨⟨others, flag⟩, hothers, hparts⟩ := Option.map_eq_some_iff.mp h
      cases hparts
      rw [ih hothers]
      rfl
    | case4 c rest _ ih =>
      obtain ⟨⟨others, flag⟩, hothers, hparts⟩ := Option.map_eq_some_iff.mp h
      cases hparts
      rw [ih hothers]
      rfl
    | case5 => cases h
  · intro h
    subst h
    induction parts with
    | nil => cases ignoreCase <;> rfl
    | cons part rest ih =>
      have hhead : (rest.flatMap ClassPart.tokens ++ closing ignoreCase).head? ≠ some .dash := by
        cases rest with
        | nil => exact nofun
        | cons next others => cases next <;> exact nofun
      cases part with
      | single c =>
        rw [List.flatMap_cons, ClassPart.tokens, List.append_assoc, List.singleton_append,
          parts?_single c hhead, ih, Option.map_some]
      | range low high =>
        rw [List.flatMap_cons, ClassPart.tokens, List.append_assoc, List.cons_append,
          List.cons_append, List.singleton_append, parts?, ih, Option.map_some]

theorem class?_eq_some_iff {tokens : List ClassToken} {parts : List ClassPart}
    {inverted ignoreCase : Bool} :
    class? tokens = some (parts, inverted, ignoreCase) ↔
      tokens = (if inverted then [.caret] else []) ++
        (parts.flatMap ClassPart.tokens ++ closing ignoreCase) := by
  constructor
  · intro h
    unfold class? at h
    split at h
    · obtain ⟨⟨others, flag⟩, hothers, hclass⟩ := Option.map_eq_some_iff.mp h
      cases hclass
      rw [parts?_eq_some_iff.mp hothers]
      rfl
    · obtain ⟨⟨others, flag⟩, hothers, hclass⟩ := Option.map_eq_some_iff.mp h
      cases hclass
      exact parts?_eq_some_iff.mp hothers
  · intro h
    have hparts : parts? (parts.flatMap ClassPart.tokens ++ closing ignoreCase) =
        some (parts, ignoreCase) := parts?_eq_some_iff.mpr rfl
    cases inverted with
    | true => rw [h, if_pos rfl, List.singleton_append, class?, hparts, Option.map_some]
    | false =>
      -- No part begins with a caret, so what is not inverted is not read as inverted.
      have hcaret : ∀ rest, parts.flatMap ClassPart.tokens ++ closing ignoreCase ≠
          .caret :: rest := by
        intro rest hrest
        cases parts with
        | nil => cases hrest
        | cons part others => cases part <;> cases hrest
      rw [h, if_neg Bool.false_ne_true, List.nil_append, class?.eq_2 _ hcaret, hparts,
        Option.map_some]

end ClassToken

theorem CharClass.written_eq (parts : List ClassPart) (inverted ignoreCase : Bool) :
    written parts inverted ignoreCase =
      '[' :: ((if inverted then [ClassToken.caret] else []) ++
        (parts.flatMap ClassPart.tokens ++ ClassToken.closing ignoreCase)).flatMap
          ClassToken.written := by
  have hparts : parts.flatMap ClassPart.written =
      (parts.flatMap ClassPart.tokens).flatMap ClassToken.written := by
    rw [List.flatMap_assoc, funext ClassPart.written_eq]
  have hclosing : (ClassToken.closing ignoreCase).flatMap ClassToken.written =
      ']' :: if ignoreCase then ['i'] else [] := by cases ignoreCase <;> rfl
  rw [written, List.flatMap_append, List.flatMap_append, hparts, hclosing, List.append_assoc]
  cases inverted <;> rfl

/-- A text can be read as a class exactly when it is the text of that class. -/
theorem CharClass.read?_eq_some_iff {text : String} {parts : List ClassPart}
    {inverted ignoreCase : Bool} :
    read? text = some (parts, inverted, ignoreCase) ↔
      text = (ofParts parts inverted ignoreCase).rawText := by
  have hraw : text = (ofParts parts inverted ignoreCase).rawText ↔
      text.toList = written parts inverted ignoreCase := by
    rw [← String.toList_inj, ofParts, String.toList_ofList]
  rw [hraw, written_eq, read?]
  constructor
  · intro h
    split at h
    · rename_i rest htext
      obtain ⟨tokens, hscan, hclass⟩ := Option.bind_eq_some_iff.mp h
      rw [htext, ClassToken.scan?_eq_some_iff.mp hscan, ClassToken.class?_eq_some_iff.mp hclass]
    · cases h
  · intro h
    rw [h]
    exact Option.bind_eq_some_iff.mpr
      ⟨_, ClassToken.scan?_eq_some_iff.mpr rfl, ClassToken.class?_eq_some_iff.mpr rfl⟩

/-- The text that a class is given reads back as its parts and flags, whatever the characters are,
and no other text can be read. So two classes have one text only if they are the same. -/
theorem class_texts_are_unambiguous :
    (∀ parts inverted ignoreCase,
      CharClass.read? (CharClass.ofParts parts inverted ignoreCase).rawText =
        some (parts, inverted, ignoreCase)) ∧
    (∀ text, (CharClass.read? text).isSome ↔ ∃ parts inverted ignoreCase,
      text = (CharClass.ofParts parts inverted ignoreCase).rawText) ∧
    ∀ parts parts' inverted inverted' ignoreCase ignoreCase',
      (CharClass.ofParts parts inverted ignoreCase).rawText =
          (CharClass.ofParts parts' inverted' ignoreCase').rawText ↔
        parts = parts' ∧ inverted = inverted' ∧ ignoreCase = ignoreCase' := by
  refine ⟨?_, ?_, ?_⟩
  · intro parts inverted ignoreCase
    exact CharClass.read?_eq_some_iff.mpr rfl
  · intro text
    rw [Option.isSome_iff_exists]
    constructor
    · intro h
      obtain ⟨⟨parts, inverted, ignoreCase⟩, hread⟩ := h
      exact ⟨parts, inverted, ignoreCase, CharClass.read?_eq_some_iff.mp hread⟩
    · intro h
      obtain ⟨parts, inverted, ignoreCase, htext⟩ := h
      exact ⟨_, CharClass.read?_eq_some_iff.mpr htext⟩
  · intro parts parts' inverted inverted' ignoreCase ignoreCase'
    constructor
    · intro h
      have hfirst := CharClass.read?_eq_some_iff.mpr (Eq.refl
        (CharClass.ofParts parts inverted ignoreCase).rawText)
      have hsecond := CharClass.read?_eq_some_iff.mpr h
      rw [hfirst] at hsecond
      cases hsecond
      exact ⟨rfl, rfl, rfl⟩
    · intro h
      obtain ⟨rfl, rfl, rfl⟩ := h
      rfl

example : CharClass.read? "[^0-9\\]\\n\\\\n\\--\\^]i" =
    some ([.range '0' '9', .single ']', .single '\n', .single '\\', .single 'n', .range '-' '^'],
      true, true) := by decide +kernel

end Backtrack
