import Backtrack.Proofs.Strings.Escaping

/-!
# Scanning a line of C

A line is read from left to right: fixed words, decimal numbers, and string literals up to the
quote that ends them. What is printed can be scanned again, whatever comes after it.
-/

namespace Backtrack

set_option autoImplicit false

theorem isDigit_of_mem_toString {n : Nat} {c : Char} (h : c ∈ (toString n).toList) :
    c.isDigit = true := by
  rw [Nat.toString_eq_repr, Nat.toList_repr] at h
  exact Nat.isDigit_of_mem_toDigits (by decide) (by decide) h

namespace CString

/-- Reads something at the front of a text, and leaves the rest. -/
abbrev Scan : Type → Type := StateT (List Char) Option

/-- What stands in front of the quote that ends a literal, and what comes after that quote. A
character after a backslash never ends it. -/
def untilQuote : List Char → Option (List Char × List Char)
  | '"' :: rest => some ([], rest)
  | '\\' :: c :: rest => (untilQuote rest).map fun (inside, after) => ('\\' :: c :: inside, after)
  | c :: rest => (untilQuote rest).map fun (inside, after) => (c :: inside, after)
  | [] => none

namespace Scan

def word (expected : String) : Scan Unit := fun text =>
  (text.dropPrefix? expected.toList).map ((), ·)

def decimal : Scan Nat := fun text =>
  match text.takeWhile Char.isDigit with
  | [] => none
  | digits => some (Nat.ofDigitChars 10 digits 0, text.dropWhile Char.isDigit)

/-- The bytes of a string literal in a text that has no trigraphs any more. -/
def literal : Scan Bytes := do
  word "\""
  let inside ← (untilQuote : Scan (List Char))
  Reader.plain.run inside

/-- What a scan reads from a whole line, where trigraphs are replaced before anything is read. -/
def line {α : Type} (scan : Scan α) (text : String) : Option α :=
  match scan (replaceTrigraphs text.toList) with
  | some (a, []) => some a
  | _ => none

theorem bind_of {α β : Type} {scan : Scan α} {next : α → Scan β} {text rest : List Char} {a : α}
    (h : scan text = some (a, rest)) : (scan >>= next) text = next a rest := by
  change Option.bind (scan text) (fun (a, rest) => next a rest) = next a rest
  rw [h]
  rfl

theorem word_append (expected : String) (rest : List Char) :
    word expected (expected.toList ++ rest) = some ((), rest) := by
  have hdrop : (expected.toList ++ rest).dropPrefix? expected.toList = some rest :=
    List.dropPrefix?_eq_some_iff.mpr ⟨expected.toList, rfl, beq_self_eq_true _⟩
  rw [word, hdrop]
  rfl

/-- A number is read up to the first character that is no digit. -/
theorem decimal_toString (n : Nat) {rest : List Char} (h : rest.takeWhile Char.isDigit = []) :
    decimal ((toString n).toList ++ rest) = some (n, rest) := by
  have hdrop : rest.dropWhile Char.isDigit = rest := by
    have hsplit := rest.takeWhile_append_dropWhile (p := Char.isDigit)
    rw [h, List.nil_append] at hsplit
    exact hsplit
  have hvalue : Nat.ofDigitChars 10 (toString n).toList 0 = n := by
    rw [Nat.toString_eq_repr, Nat.toList_repr]
    exact Nat.ofDigitChars_ten_toDigits
  unfold decimal
  rw [List.takeWhile_append_of_pos fun c => isDigit_of_mem_toString,
    List.dropWhile_append_of_pos fun c => isDigit_of_mem_toString, h, List.append_nil, hdrop]
  split
  · rename_i hnil
    rw [Nat.toString_eq_repr, Nat.toList_repr] at hnil
    exact absurd hnil Nat.toDigits_ne_nil
  · rw [hvalue]

end Scan

theorem untilQuote_plain {c : Char} (hquote : c ≠ '"') (hbackslash : c ≠ '\\') (rest : List Char) :
    untilQuote (c :: rest) =
      (untilQuote rest).map fun (inside, after) => (c :: inside, after) :=
  untilQuote.eq_3 c rest hquote fun _ _ h _ => hbackslash h

theorem untilQuote_escapeByte (before b : UInt8) (rest : List Char) :
    untilQuote (escapeByte before b ++ rest) =
      (untilQuote rest).map fun (inside, after) => (escapeByte before b ++ inside, after) := by
  rcases escapeByte_cases (Eq.refl (escapeByte before b)) with
    ⟨mark, -, he⟩ | ⟨-, hbackslash, hquote, -, he⟩ | he
  · rw [he]
    rfl
  · rw [he]
    exact untilQuote_plain (fun h => hquote (eq_of_ofNat h)) (fun h => hbackslash (eq_of_ofNat h))
      rest
  · have hlt : b.toNat < 256 := b.toNat_lt
    have hsecond : b.toNat / 8 % 8 < 8 := by omega
    have hthird : b.toNat % 8 < 8 := by omega
    rw [he]
    change Option.map _ (untilQuote (digit (b.toNat / 8 % 8) :: digit (b.toNat % 8) :: rest)) = _
    rw [untilQuote_plain (digit_ne_quote hsecond) (digit_ne_backslash hsecond),
      untilQuote_plain (digit_ne_quote hthird) (digit_ne_backslash hthird), Option.map_map,
      Option.map_map]
    rfl

theorem untilQuote_escapeAfter (before : UInt8) (bytes : Bytes) (rest : List Char) :
    untilQuote (escapeAfter before bytes ++ '"' :: rest) =
      some (escapeAfter before bytes, rest) := by
  induction bytes generalizing before with
  | nil => rfl
  | cons b others ih =>
    rw [escapeAfter, List.append_assoc, untilQuote_escapeByte, ih]
    rfl

/-- A quoted text is read as the bytes it was written for. -/
theorem Scan.literal_escape (bytes : Bytes) (rest : List Char) :
    Scan.literal ('"' :: (escapeAfter 0 bytes ++ '"' :: rest)) = some (bytes, rest) := by
  have hword : Scan.word "\"" ('"' :: (escapeAfter 0 bytes ++ '"' :: rest)) =
      some ((), escapeAfter 0 bytes ++ '"' :: rest) := Scan.word_append "\"" _
  have hread : Reader.plain.run (escapeAfter 0 bytes) = some bytes := by
    have hrun := run_escapeAfter 0 bytes []
    rw [List.append_nil] at hrun
    rw [hrun]
    exact congrArg some (List.append_nil bytes)
  unfold Scan.literal
  rw [Scan.bind_of hword, Scan.bind_of (untilQuote_escapeAfter 0 bytes rest), hread]
  rfl

theorem calm_cons {c : Char} (hc : c ≠ '?') {rest : List Char} (h : Calm rest) :
    Calm (c :: rest) := by
  cases rest with
  | nil => exact .singleton c
  | cons d rest => exact .cons_cons (absurd · hc) h

theorem calm_append {text rest : List Char} (htext : '?' ∉ text) (h : Calm rest) :
    Calm (text ++ rest) := by
  induction text with
  | nil => exact h
  | cons c text ih =>
    obtain ⟨hc, htext⟩ := not_or.mp (List.mem_cons.not.mp htext)
    exact calm_cons (Ne.symm hc) (ih htext)

theorem calm_literal (bytes : Bytes) {rest : List Char} (h : Calm rest) :
    Calm ('"' :: (escapeAfter 0 bytes ++ '"' :: rest)) := by
  have hinside : Calm ('"' :: escapeAfter 0 bytes) :=
    calm_escapeAfter (show '"' = '?' → (0 : UInt8) = 0x3F from nofun) bytes
  have hafter : Calm ('"' :: rest) := calm_cons (show '"' ≠ '?' from nofun) h
  change Calm (('"' :: escapeAfter 0 bytes) ++ '"' :: rest)
  refine List.isChain_append.mpr ⟨hinside, hafter, ?_⟩
  intro c _ d hd _
  obtain rfl := Option.some.inj hd
  exact nofun

end CString

/-- Numbers in front of the same mark can be told apart. -/
theorem decimal_inj {mark : Char} (hmark : mark.isDigit = false) {i j : Nat}
    {left right : List Char}
    (h : (toString i).toList ++ mark :: left = (toString j).toList ++ mark :: right) :
    i = j ∧ left = right := by
  have hstop : ∀ rest : List Char, (mark :: rest).takeWhile Char.isDigit = [] := by
    intro rest
    exact List.takeWhile_cons_of_neg (by rw [hmark]; exact Bool.false_ne_true)
  have hscan := CString.Scan.decimal_toString i (hstop left)
  rw [h, CString.Scan.decimal_toString j (hstop right)] at hscan
  obtain ⟨hnumber, hrest⟩ := Prod.mk.inj (Option.some.inj hscan)
  exact ⟨hnumber.symm, (List.cons.inj hrest).2.symm⟩

end Backtrack
