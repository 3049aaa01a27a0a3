import Mathlib.Data.List.Chain
import Mathlib.Logic.Basic
import Backtrack.CString

/-!
# How C reads a string literal

What stands between the quotes of a string literal is read in two passes: trigraphs are replaced
first, then escapes are read, of which the octal ones take up to three digits. The written form of
bytes has no trigraph and reads as the bytes.
-/

namespace Backtrack.CString

set_option autoImplicit false

/-- What two question marks and another character stand for. -/
def trigraphs : List (Char × Char) :=
  [('=', '#'), ('(', '['), ('/', '\\'), (')', ']'), (Char.ofNat 0x27, '^'), ('<', Char.ofNat 0x7B),
    ('!', '|'), ('>', Char.ofNat 0x7D), ('-', '~')]

def replaceTrigraphs : List Char → List Char
  | '?' :: '?' :: c :: rest =>
    match trigraphs.lookup c with
    | some replaced => replaced :: replaceTrigraphs rest
    | none => '?' :: replaceTrigraphs ('?' :: c :: rest)
  | c :: rest => c :: replaceTrigraphs rest
  | [] => []
termination_by text => text.length

/-- No two question marks stand side by side. -/
abbrev Calm (text : List Char) : Prop := text.IsChain fun a b => a = '?' → b ≠ '?'

theorem replaceTrigraphs_eq {text : List Char} (h : Calm text) : replaceTrigraphs text = text := by
  fun_induction replaceTrigraphs text with
  | case1 c rest replaced hlookup ih => exact absurd rfl (List.isChain_cons_cons.mp h |>.1 rfl)
  | case2 c rest hlookup ih => exact absurd rfl (List.isChain_cons_cons.mp h |>.1 rfl)
  | case3 c rest hne ih => rw [ih h.tail]
  | case4 => rfl

def simpleEscapes : List (Char × UInt8) :=
  [('\\', 0x5C), ('"', 0x22), (Char.ofNat 0x27, 0x27), ('?', 0x3F), ('a', 0x07), ('b', 0x08),
    ('t', 0x09), ('n', 0x0A), ('v', 0x0B), ('f', 0x0C), ('r', 0x0D)]

def octalDigit? (c : Char) : Option Nat :=
  if 0x30 ≤ c.toNat ∧ c.toNat ≤ 0x37 then some (c.toNat - 0x30) else none

/-- The byte with a value, which must not be too large for one. -/
def octalByte? (value : Nat) : Option UInt8 := if value ≤ 0xFF then some value.toUInt8 else none

/-- Where a reader is: outside of escapes, after a backslash, or inside an octal escape that has a
value so far and can take one more digit, or two. -/
inductive Reader where
  | plain
  | escape
  | octal (value : Nat) (two : Bool)

namespace Reader

/-- Reads a character outside of escapes. A quote would end the literal. -/
def readPlain (c : Char) : Option (Bytes × Reader) :=
  if c = '\\' then some ([], .escape)
  else if c ≠ '"' ∧ 0x20 ≤ c.toNat ∧ c.toNat ≤ 0x7E then some ([c.toNat.toUInt8], .plain)
  else none

/-- Reads one character: the bytes that are known with it, and where the reader is then. -/
def step : Reader → Char → Option (Bytes × Reader)
  | .plain, c => readPlain c
  | .escape, c =>
    match simpleEscapes.lookup c with
    | some b => some ([b], .plain)
    | none => (octalDigit? c).map fun d => ([], .octal d true)
  | .octal value two, c =>
    match octalDigit? c with
    | some d =>
      if two then some ([], .octal (8 * value + d) false)
      else (octalByte? (8 * value + d)).map fun b => ([b], .plain)
    | none => do
      let b ← octalByte? value
      let (out, next) ← readPlain c
      return (b :: out, next)

def finish : Reader → Option Bytes
  | .plain => some []
  | .escape => none
  | .octal value _ => (octalByte? value).map ([·])

def run : Reader → List Char → Option Bytes
  | reader, [] => reader.finish
  | reader, c :: rest =>
    match reader.step c with
    | some (out, next) => (next.run rest).map (out ++ ·)
    | none => none

theorem run_cons {reader next : Reader} {c : Char} {out : Bytes}
    (h : reader.step c = some (out, next)) (rest : List Char) :
    reader.run (c :: rest) = (next.run rest).map (out ++ ·) := by
  rw [run, h]

end Reader

/-- The bytes of a string literal with this text between its quotes. -/
def read (text : List Char) : Option Bytes := Reader.plain.run (replaceTrigraphs text)

/-- The three ways in which a byte is written. -/
theorem escapeByte_cases {before b : UInt8} {text : List Char} (h : escapeByte before b = text) :
    (∃ c, simpleEscapes.lookup c = some b ∧ text = ['\\', c]) ∨
    (isPrintable b = true ∧ b ≠ 0x5C ∧ b ≠ 0x22 ∧ ¬ (b = 0x3F ∧ before = 0x3F) ∧
      text = [Char.ofNat b.toNat]) ∨
    text = octal b := by
  unfold escapeByte at h
  rcases ite_eq_iff.mp h with ⟨rfl, h⟩ | ⟨hbackslash, h⟩
  · exact Or.inl ⟨'\\', rfl, h.symm⟩
  rcases ite_eq_iff.mp h with ⟨rfl, h⟩ | ⟨hquote, h⟩
  · exact Or.inl ⟨'"', rfl, h.symm⟩
  rcases ite_eq_iff.mp h with ⟨rfl, h⟩ | ⟨-, h⟩
  · exact Or.inl ⟨'a', rfl, h.symm⟩
  rcases ite_eq_iff.mp h with ⟨rfl, h⟩ | ⟨-, h⟩
  · exact Or.inl ⟨'b', rfl, h.symm⟩
  rcases ite_eq_iff.mp h with ⟨rfl, h⟩ | ⟨-, h⟩
  · exact Or.inl ⟨'t', rfl, h.symm⟩
  rcases ite_eq_iff.mp h with ⟨rfl, h⟩ | ⟨-, h⟩
  · exact Or.inl ⟨'n', rfl, h.symm⟩
  rcases ite_eq_iff.mp h with ⟨rfl, h⟩ | ⟨-, h⟩
  · exact Or.inl ⟨'v', rfl, h.symm⟩
  rcases ite_eq_iff.mp h with ⟨rfl, h⟩ | ⟨-, h⟩
  · exact Or.inl ⟨'f', rfl, h.symm⟩
  rcases ite_eq_iff.mp h with ⟨rfl, h⟩ | ⟨-, h⟩
  · exact Or.inl ⟨'r', rfl, h.symm⟩
  rcases ite_eq_iff.mp h with ⟨hb, he⟩ | ⟨hmark, h⟩
  · exact Or.inl ⟨'?', hb.1 ▸ rfl, he.symm⟩
  rcases ite_eq_iff.mp h with ⟨hprintable, h⟩ | ⟨-, h⟩
  · exact Or.inr (Or.inl ⟨hprintable, hbackslash, hquote, hmark, h.symm⟩)
  · exact Or.inr (Or.inr h.symm)

theorem toNat_ofNat_byte (b : UInt8) : (Char.ofNat b.toNat).toNat = b.toNat := by
  have hlt : b.toNat < 256 := b.toNat_lt
  have hvalid : b.toNat.isValidChar := Or.inl (by omega)
  rw [Char.ofNat, dif_pos hvalid]
  rfl

theorem eq_of_ofNat {b : UInt8} {c : Char} (h : Char.ofNat b.toNat = c) :
    b = c.toNat.toUInt8 := by
  rw [← h, toNat_ofNat_byte]
  exact UInt8.ofNat_toNat.symm

theorem octalDigit?_digit {n : Nat} (h : n < 8) : octalDigit? (digit n) = some n := by
  have hall : ∀ n : Fin 8, octalDigit? (digit n) = some n.val := by decide
  exact hall ⟨n, h⟩

theorem digit_ne_mark {n : Nat} (h : n < 8) : digit n ≠ '?' := by
  have hall : ∀ n : Fin 8, digit n ≠ '?' := by decide
  exact hall ⟨n, h⟩

theorem lookup_digit {n : Nat} (h : n < 8) : simpleEscapes.lookup (digit n) = none := by
  have hall : ∀ n : Fin 8, simpleEscapes.lookup (digit n) = none := by decide
  exact hall ⟨n, h⟩

theorem run_simple {c : Char} {b : UInt8} (h : simpleEscapes.lookup c = some b) (rest : List Char) :
    Reader.plain.run ('\\' :: c :: rest) = (Reader.plain.run rest).map (b :: ·) := by
  have hstep : Reader.escape.step c = some ([b], .plain) := by
    rw [Reader.step, h]
  rw [Reader.run_cons (show Reader.plain.step '\\' = some ([], .escape) from rfl),
    Reader.run_cons hstep, Option.map_map]
  rfl

theorem run_octal (b : UInt8) (rest : List Char) :
    Reader.plain.run (octal b ++ rest) = (Reader.plain.run rest).map (b :: ·) := by
  have hlt : b.toNat < 256 := b.toNat_lt
  have hfirst : Reader.escape.step (digit (b.toNat / 64)) =
      some ([], .octal (b.toNat / 64) true) := by
    rw [Reader.step, lookup_digit (by omega), octalDigit?_digit (by omega)]
    rfl
  have hsecond : (Reader.octal (b.toNat / 64) true).step (digit (b.toNat / 8 % 8)) =
      some ([], .octal (8 * (b.toNat / 64) + b.toNat / 8 % 8) false) := by
    rw [Reader.step, octalDigit?_digit (by omega)]
    rfl
  have hvalue : 8 * (8 * (b.toNat / 64) + b.toNat / 8 % 8) + b.toNat % 8 = b.toNat := by omega
  have hbyte : octalByte? b.toNat = some b := by
    rw [octalByte?, if_pos (by omega)]
    exact congrArg some UInt8.ofNat_toNat
  have hthird : (Reader.octal (8 * (b.toNat / 64) + b.toNat / 8 % 8) false).step
      (digit (b.toNat % 8)) = some ([b], .plain) := by
    rw [Reader.step, octalDigit?_digit (by omega)]
    simp only [hvalue, hbyte, Bool.false_eq_true, if_false, Option.map_some]
  have hbackslash : Reader.plain.step '\\' = some ([], .escape) := rfl
  unfold octal
  rw [List.cons_append, List.cons_append, List.cons_append, List.cons_append, List.nil_append,
    Reader.run_cons hbackslash, Reader.run_cons hfirst, Reader.run_cons hsecond,
    Reader.run_cons hthird]
  simp only [Option.map_map]
  rfl

theorem run_printable {b : UInt8} (h : isPrintable b = true) (hbackslash : b ≠ 0x5C)
    (hquote : b ≠ 0x22) (rest : List Char) :
    Reader.plain.run (Char.ofNat b.toNat :: rest) = (Reader.plain.run rest).map (b :: ·) := by
  have hrange : 0x20 ≤ b.toNat ∧ b.toNat ≤ 0x7E := of_decide_eq_true h
  have hstep : Reader.plain.step (Char.ofNat b.toNat) = some ([b], .plain) := by
    have hne : Char.ofNat b.toNat ≠ '\\' := fun he => hbackslash (eq_of_ofNat he)
    have hne' : Char.ofNat b.toNat ≠ '"' := fun he => hquote (eq_of_ofNat he)
    rw [Reader.step, Reader.readPlain, if_neg hne, toNat_ofNat_byte, if_pos ⟨hne', hrange⟩]
    exact congrArg (fun byte => some ([byte], Reader.plain)) UInt8.ofNat_toNat
  rw [Reader.run_cons hstep]
  rfl

theorem run_escapeByte (before b : UInt8) (rest : List Char) :
    Reader.plain.run (escapeByte before b ++ rest) = (Reader.plain.run rest).map (b :: ·) := by
  rcases escapeByte_cases (Eq.refl (escapeByte before b)) with
    ⟨c, hc, he⟩ | ⟨hprintable, hbackslash, hquote, -, he⟩ | he
  · rw [he]
    exact run_simple hc rest
  · rw [he]
    exact run_printable hprintable hbackslash hquote rest
  · rw [he]
    exact run_octal b rest

/-- Whatever comes after it, the written form of bytes is read as the bytes. -/
theorem run_escapeAfter (before : UInt8) (bytes : Bytes) (rest : List Char) :
    Reader.plain.run (escapeAfter before bytes ++ rest) =
      (Reader.plain.run rest).map (bytes ++ ·) := by
  induction bytes generalizing before with
  | nil => exact Option.map_id_apply.symm
  | cons b others ih =>
    rw [escapeAfter, List.append_assoc, run_escapeByte, ih, Option.map_map]
    rfl

theorem calm_escapeAfter {c : Char} {before : UInt8} (h : c = '?' → before = 0x3F)
    (bytes : Bytes) : Calm (c :: escapeAfter before bytes) := by
  induction bytes generalizing c before with
  | nil => exact .singleton c
  | cons b rest ih =>
    rw [escapeAfter]
    rcases escapeByte_cases (Eq.refl (escapeByte before b)) with
      ⟨mark, hmark, he⟩ | ⟨-, -, -, hapart, he⟩ | he
    · rw [he]
      have hlast : mark = '?' → b = 0x3F := by
        rintro rfl
        exact (Option.some.inj hmark).symm
      exact .cons_cons (fun _ => nofun) (.cons_cons nofun (ih hlast))
    · rw [he]
      have hlast : Char.ofNat b.toNat = '?' → b = 0x3F := eq_of_ofNat
      exact .cons_cons (fun hc hb => hapart ⟨hlast hb, h hc⟩) (ih hlast)
    · rw [he]
      have hlt : b.toNat < 256 := b.toNat_lt
      have hfirst : digit (b.toNat / 64) ≠ '?' := digit_ne_mark (by omega)
      have hsecond : digit (b.toNat / 8 % 8) ≠ '?' := digit_ne_mark (by omega)
      have hthird : digit (b.toNat % 8) ≠ '?' := digit_ne_mark (by omega)
      refine .cons_cons (fun _ => nofun) (.cons_cons nofun (.cons_cons (absurd · hfirst) ?_))
      exact .cons_cons (absurd · hsecond) (ih (absurd · hthird))

/-- The written form of bytes reads as the bytes. -/
theorem read_escape (bytes : Bytes) : read (escape bytes).toList = some bytes := by
  have hcalm : Calm (escapeAfter 0 bytes) :=
    (calm_escapeAfter (show ' ' = '?' → (0 : UInt8) = 0x3F from nofun) bytes).tail
  have hrun := run_escapeAfter 0 bytes []
  rw [List.append_nil] at hrun
  rw [escape_toList, read, replaceTrigraphs_eq hcalm, hrun]
  exact congrArg some (List.append_nil bytes)

end Backtrack.CString
