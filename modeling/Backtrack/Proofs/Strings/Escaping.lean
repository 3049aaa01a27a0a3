import Mathlib.Data.List.Infix
import Backtrack.Proofs.Strings.Reading

/-!
# What the written form of bytes looks like

The written form can stand between two quotes on one line of a source file: it is printable, has
no trigraph, and no quote in it ends the literal. So it can be told where it ends, and what it
was written for.
-/

namespace Backtrack.CString

set_option autoImplicit false

def IsPrintable (c : Char) : Prop := 0x20 ≤ c.toNat ∧ c.toNat ≤ 0x7E

/-- How many backslashes a text ends with. Two of them are one escape, so the character after the
text is escaped exactly when their number is odd. -/
def backslashes (text : List Char) : Nat := (text.reverse.takeWhile (· = '\\')).length

theorem printable_of_lookup {c : Char} {b : UInt8} (h : simpleEscapes.lookup c = some b) :
    IsPrintable c := by
  have hall : ∀ entry ∈ simpleEscapes, 0x20 ≤ entry.1.toNat ∧ entry.1.toNat ≤ 0x7E := by decide
  obtain ⟨before, after, hsplit, -⟩ := List.lookup_eq_some_iff.mp h
  apply hall (c, b)
  rw [hsplit]
  exact List.mem_append_right before List.mem_cons_self

theorem printable_digit {n : Nat} (h : n < 8) : IsPrintable (digit n) := by
  have hall : ∀ n : Fin 8, 0x20 ≤ (digit n).toNat ∧ (digit n).toNat ≤ 0x7E := by decide
  exact hall ⟨n, h⟩

theorem printable_escapeByte (before b : UInt8) : ∀ c ∈ escapeByte before b, IsPrintable c := by
  have hbackslash : IsPrintable '\\' := by constructor <;> decide
  rcases escapeByte_cases (Eq.refl (escapeByte before b)) with
    ⟨mark, hmark, he⟩ | ⟨hprintable, -, -, -, he⟩ | he
  · rw [he]
    exact List.forall_mem_cons.mpr ⟨hbackslash, List.forall_mem_singleton.mpr
      (printable_of_lookup hmark)⟩
  · intro c hc
    rw [he] at hc
    unfold IsPrintable
    rw [List.mem_singleton.mp hc, toNat_ofNat_byte]
    exact of_decide_eq_true hprintable
  · have hlt : b.toNat < 256 := b.toNat_lt
    rw [he, octal]
    simp only [List.forall_mem_cons]
    refine ⟨hbackslash, printable_digit ?_, printable_digit ?_, printable_digit ?_, nofun⟩
    · omega
    · omega
    · omega

theorem printable_escapeAfter (before : UInt8) (bytes : Bytes) :
    ∀ c ∈ escapeAfter before bytes, IsPrintable c := by
  induction bytes generalizing before with
  | nil => exact nofun
  | cons b rest ih =>
    intro c hc
    rcases List.mem_append.mp hc with hc | hc
    · exact printable_escapeByte before b c hc
    · exact ih b c hc

theorem backslashes_append (front back : List Char) :
    backslashes (front ++ back) =
      if backslashes back = back.length then back.length + backslashes front
      else backslashes back := by
  unfold backslashes
  rw [List.reverse_append, List.takeWhile_append, List.length_reverse]
  split
  · rw [List.length_append, List.length_reverse]
  · rfl

theorem backslashes_of_last {c : Char} (h : c ≠ '\\') (front : List Char) :
    backslashes (front ++ [c]) = 0 := by
  have hlast : backslashes [c] = 0 := by simp [backslashes, h]
  rw [backslashes_append, hlast]
  exact if_neg nofun

/-- After complete escapes, a run of backslashes is as odd as it is by itself. -/
theorem backslashes_append_mod {front : List Char} (h : backslashes front % 2 = 0)
    (back : List Char) : backslashes (front ++ back) % 2 = backslashes back % 2 := by
  rw [backslashes_append]
  split
  · omega
  · rfl

theorem digit_ne_backslash {n : Nat} (h : n < 8) : digit n ≠ '\\' := by
  have hall : ∀ n : Fin 8, digit n ≠ '\\' := by decide
  exact hall ⟨n, h⟩

theorem backslashes_escapeByte (before b : UInt8) :
    backslashes (escapeByte before b) % 2 = 0 := by
  rcases escapeByte_cases (Eq.refl (escapeByte before b)) with
    ⟨mark, -, he⟩ | ⟨-, hbackslash, -, -, he⟩ | he
  · rw [he]
    by_cases hm : mark = '\\'
    · subst hm
      rfl
    · have hlast : backslashes (['\\'] ++ [mark]) = 0 := backslashes_of_last hm _
      exact congrArg (· % 2) hlast
  · rw [he]
    have hne : Char.ofNat b.toNat ≠ '\\' := fun h => hbackslash (eq_of_ofNat h)
    have hlast : backslashes ([] ++ [Char.ofNat b.toNat]) = 0 := backslashes_of_last hne _
    exact congrArg (· % 2) hlast
  · rw [he]
    have hne : digit (b.toNat % 8) ≠ '\\' := digit_ne_backslash (Nat.mod_lt _ (by decide))
    have hlast : backslashes (['\\', digit (b.toNat / 64), digit (b.toNat / 8 % 8)] ++
        [digit (b.toNat % 8)]) = 0 := backslashes_of_last hne _
    exact congrArg (· % 2) hlast

theorem digit_ne_quote {n : Nat} (h : n < 8) : digit n ≠ '"' := by
  have hall : ∀ n : Fin 8, digit n ≠ '"' := by decide
  exact hall ⟨n, h⟩

/-- A byte is written with a quote only as the escape of a quote. -/
theorem before_quote_of_escapeByte {before b : UInt8} {front back : List Char}
    (h : escapeByte before b = front ++ '"' :: back) : front = ['\\'] := by
  have hmem : '"' ∈ escapeByte before b := by
    rw [h]
    exact List.mem_append_right front List.mem_cons_self
  rcases escapeByte_cases (Eq.refl (escapeByte before b)) with
    ⟨mark, -, he⟩ | ⟨-, -, hquote, -, he⟩ | he
  · rw [he] at h
    cases front with
    | nil => cases h
    | cons first rest =>
      obtain ⟨rfl, hrest⟩ := List.cons.inj h
      cases rest with
      | nil => rfl
      | cons second rest =>
        obtain ⟨-, hnil⟩ := List.cons.inj hrest
        exact absurd hnil.symm (List.append_ne_nil_of_right_ne_nil rest (List.cons_ne_nil _ _))
  · rw [he] at hmem
    exact absurd (eq_of_ofNat (List.mem_singleton.mp hmem).symm) hquote
  · have hlt : b.toNat < 256 := b.toNat_lt
    have hfirst : digit (b.toNat / 64) ≠ '"' := digit_ne_quote (by omega)
    have hsecond : digit (b.toNat / 8 % 8) ≠ '"' := digit_ne_quote (by omega)
    have hthird : digit (b.toNat % 8) ≠ '"' := digit_ne_quote (by omega)
    rw [he, octal] at hmem
    simp only [List.mem_cons, List.not_mem_nil, or_false, hfirst.symm, hsecond.symm,
      hthird.symm] at hmem
    exact absurd hmem (by decide)

theorem odd_before_quote {before : UInt8} {bytes : Bytes} {front back : List Char}
    (h : escapeAfter before bytes = front ++ '"' :: back) : backslashes front % 2 = 1 := by
  induction bytes generalizing before front with
  | nil => exact absurd h.symm (by simp [escapeAfter])
  | cons b rest ih =>
    rw [escapeAfter] at h
    rcases List.append_eq_append_iff.mp h with ⟨front', rfl, hrest⟩ | ⟨back', hbyte, hrest⟩
    · rw [backslashes_append_mod (backslashes_escapeByte before b)]
      exact ih hrest
    · cases back' with
      | nil =>
        -- The rest would begin with a quote, which has no backslash before it.
        have hnone : backslashes [] % 2 = 1 := ih hrest.symm
        cases hnone
      | cons c back' =>
        obtain ⟨rfl, -⟩ := List.cons.inj hrest
        rw [before_quote_of_escapeByte hbyte]
        rfl

theorem escape_injective : Function.Injective escape := by
  intro bytes other h
  have hread := read_escape bytes
  rw [h, read_escape] at hread
  exact (Option.some.inj hread).symm

/-- The quote that ends a literal is the first one that is not part of what is written. -/
theorem escape_quote_inj {bytes other : Bytes} {left right : List Char}
    (h : (escape bytes).toList ++ '"' :: left = (escape other).toList ++ '"' :: right) :
    bytes = other ∧ left = right := by
  have hquote : ∀ (one two : Bytes) (rest : List Char),
      (escape one).toList ≠ (escape two).toList ++ '"' :: rest := by
    intro one two rest he
    have hone := run_escapeAfter 0 one []
    have htwo := run_escapeAfter 0 two ('"' :: rest)
    have hstop : Reader.plain.run ('"' :: rest) = none := rfl
    rw [escape_toList, escape_toList] at he
    rw [← he, ← List.append_nil (escapeAfter 0 one), hone, hstop] at htwo
    cases htwo
  rcases List.append_eq_append_iff.mp h with ⟨between, hother, hrest⟩ | ⟨between, hbytes, hrest⟩
  · cases between with
    | nil =>
      rw [List.append_nil] at hother
      exact ⟨(escape_injective (String.toList_injective hother)).symm, (List.cons.inj hrest).2⟩
    | cons c between =>
      obtain ⟨rfl, -⟩ := List.cons.inj hrest
      exact absurd hother (hquote other bytes between)
  · cases between with
    | nil =>
      rw [List.append_nil] at hbytes
      exact ⟨escape_injective (String.toList_injective hbytes), (List.cons.inj hrest).2.symm⟩
    | cons c between =>
      obtain ⟨rfl, -⟩ := List.cons.inj hrest
      exact absurd hbytes (hquote bytes other between)

theorem escaped_text_reads_back (bytes : Bytes) :
    (∀ c ∈ (escape bytes).toList, 0x20 ≤ c.toNat ∧ c.toNat ≤ 0x7E) ∧
    ¬ ['?', '?'] <:+: (escape bytes).toList ∧
    (∀ front back, (escape bytes).toList = front ++ '"' :: back → backslashes front % 2 = 1) ∧
    read (escape bytes).toList = some bytes ∧
    ∀ other, escape other = escape bytes → other = bytes := by
  have hcalm : Calm (escapeAfter 0 bytes) :=
    (calm_escapeAfter (show ' ' = '?' → (0 : UInt8) = 0x3F from nofun) bytes).tail
  refine ⟨?_, ?_, ?_, read_escape bytes, fun other h => escape_injective h⟩
  · rw [escape_toList]
    exact printable_escapeAfter 0 bytes
  · intro hmarks
    rw [escape_toList] at hmarks
    have hpair : Calm ['?', '?'] := hcalm.infix hmarks
    exact (List.isChain_cons_cons.mp hpair).1 rfl rfl
  · intro front back h
    rw [escape_toList] at h
    exact odd_before_quote h

example : escape [0x3F, 0x3F, 0x2D, 0x22, 0x01, 0x37] = "?\\?-\\\"\\0017" := by decide

end Backtrack.CString
