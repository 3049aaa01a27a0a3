import Backtrack.Proofs.Constants.Identity
import Backtrack.Proofs.Warnings.Agreement

/-!
# Character classes are translated exactly

The parts of a class come in any order, as characters and as ranges. In its constant they are two
strings of bytes with their counts. A byte belongs to the constant, as it is read from the printed
line, exactly when its code point belongs to some part.
-/

namespace Backtrack

set_option autoImplicit false

def ClassPart.Contains (c : Char) : ClassPart → Prop
  | .single alone => c = alone
  | .range low high => low ≤ c ∧ c ≤ high

/-- The byte is one that the part stands for in a parser. -/
def ClassPart.Yields (b : UInt8) : ClassPart → Prop
  | .single c => b ∈ Bytes.ofChar c
  | .range low high => Bytes.clamp low ≤ b ∧ b ≤ Bytes.clamp high

/-- The part begins with a byte: the character that stands alone, or the lower bound. -/
def ClassPart.beginsNarrow : ClassPart → Bool
  | .single c => Bytes.isNarrow c
  | .range low _ => Bytes.isNarrow low

namespace CharClass

/-- The character belongs to a part, whether the class is inverted or not. -/
def Covers (cls : CharClass) (c : Char) : Prop := ∃ part ∈ cls.parts, part.Contains c

theorem mem_clampedRanges {cls : CharClass} {range : UInt8 × UInt8} :
    range ∈ cls.clampedRanges ↔
      ∃ low high, .range low high ∈ cls.parts ∧ range = (Bytes.clamp low, Bytes.clamp high) := by
  unfold clampedRanges
  rw [List.mem_map]
  constructor
  · rintro ⟨⟨low, high⟩, hrange, rfl⟩
    exact ⟨low, high, mem_ranges.mp hrange, rfl⟩
  · rintro ⟨low, high, hpart, rfl⟩
    exact ⟨(low, high), mem_ranges.mpr hpart, rfl⟩

/-- Whether a range is one byte or more, it is searched in one of the two strings. -/
theorem yields_iff (cls : CharClass) (b : UInt8) :
    (b ∈ cls.byteSingles ∨ ∃ range ∈ cls.byteRanges, range.1 ≤ b ∧ b ≤ range.2) ↔
      ∃ part ∈ cls.parts, part.Yields b := by
  constructor
  · intro h
    rcases h with h | ⟨range, hrange, hb⟩
    · rcases List.mem_append.mp h with h | h
      · obtain ⟨c, hc, hb⟩ := List.mem_flatMap.mp h
        exact ⟨.single c, mem_singles.mp hc, hb⟩
      · obtain ⟨range, hrange, rfl⟩ := List.mem_map.mp h
        obtain ⟨hrange, heq⟩ := List.mem_filter.mp hrange
        obtain ⟨low, high, hpart, rfl⟩ := mem_clampedRanges.mp hrange
        have hpoint : Bytes.clamp low = Bytes.clamp high := of_decide_eq_true heq
        exact ⟨.range low high, hpart, UInt8.le_refl _, UInt8.le_of_eq hpoint⟩
    · obtain ⟨low, high, hpart, rfl⟩ := mem_clampedRanges.mp (List.mem_filter.mp hrange).1
      exact ⟨.range low high, hpart, hb⟩
  · rintro ⟨part, hpart, hb⟩
    cases part with
    | single c =>
      left
      exact List.mem_append_left _ (List.mem_flatMap.mpr ⟨c, mem_singles.mpr hpart, hb⟩)
    | range low high =>
      have hclamped : (Bytes.clamp low, Bytes.clamp high) ∈ cls.clampedRanges :=
        mem_clampedRanges.mpr ⟨low, high, hpart, rfl⟩
      obtain ⟨hlow, hhigh⟩ := hb
      -- Bounds can meet in the highest byte although they differ as characters.
      by_cases heq : Bytes.clamp low = Bytes.clamp high
      · left
        apply List.mem_append_right
        apply List.mem_map.mpr
        refine ⟨_, List.mem_filter.mpr ⟨hclamped, decide_eq_true heq⟩, ?_⟩
        exact UInt8.le_antisymm hlow (heq ▸ hhigh)
      · right
        exact ⟨_, List.mem_filter.mpr ⟨hclamped, decide_eq_true heq⟩, hlow, hhigh⟩

end CharClass

theorem Bytes.toNat_clamp (c : Char) : (Bytes.clamp c).toNat = min c.toNat 0xFF := by
  unfold Bytes.clamp
  exact Nat.mod_eq_of_lt (by omega)

/-- A part that begins with a byte stands for the bytes it contains. A wider upper bound covers
every byte from the lower one on, and so does the highest byte. -/
theorem ClassPart.yields_iff_contains {part : ClassPart} (h : part.beginsNarrow = true)
    (b : UInt8) : part.Yields b ↔ part.Contains (Char.ofNat b.toNat) := by
  have hb : b.toNat < 256 := b.toNat_lt
  cases part with
  | single c =>
    change b ∈ Bytes.ofChar c ↔ Char.ofNat b.toNat = c
    have hc : c.toNat ≤ 0xFF := of_decide_eq_true h
    rw [Bytes.ofChar_narrow h, List.mem_singleton]
    constructor
    · rintro rfl
      have hbyte : c.toNat.toUInt8.toNat = c.toNat := Nat.mod_eq_of_lt (Nat.lt_succ_of_le hc)
      rw [hbyte, Char.ofNat_toNat]
    · exact CString.eq_of_ofNat
  | range low high =>
    change Bytes.clamp low ≤ b ∧ b ≤ Bytes.clamp high ↔
      low ≤ Char.ofNat b.toNat ∧ Char.ofNat b.toNat ≤ high
    have hlow : low.toNat ≤ 0xFF := of_decide_eq_true h
    have hle : ∀ c d : Char, c ≤ d ↔ c.toNat ≤ d.toNat := fun _ _ => Iff.rfl
    rw [UInt8.le_iff_toNat_le, UInt8.le_iff_toNat_le, Bytes.toNat_clamp, Bytes.toNat_clamp, hle,
      hle, CString.toNat_ofNat_byte]
    omega

theorem CharClass.covers_iff {cls : CharClass} (h : cls.parts.all ClassPart.beginsNarrow = true)
    (b : UInt8) : cls.Covers (Char.ofNat b.toNat) ↔ ∃ part ∈ cls.parts, part.Yields b := by
  constructor
  · rintro ⟨part, hpart, hc⟩
    exact ⟨part, hpart, (part.yields_iff_contains (List.all_eq_true.mp h part hpart) b).mpr hc⟩
  · rintro ⟨part, hpart, hb⟩
    exact ⟨part, hpart, (part.yields_iff_contains (List.all_eq_true.mp h part hpart) b).mp hb⟩

/-- A class as its definition has it. -/
structure ClassConstant where
  number : Nat
  singleCount : Nat
  rangeCount : Nat
  singles : Bytes
  bounds : Bytes

namespace ClassConstant

open CString

def pairs : Bytes → List (UInt8 × UInt8)
  | low :: high :: rest => (low, high) :: pairs rest
  | _ => []

/-- The byte is a single one or in a range. The counts say how far each string is read. -/
def Accepts (constant : ClassConstant) (b : UInt8) : Prop :=
  b ∈ constant.singles.take constant.singleCount ∨
    ∃ range ∈ (pairs constant.bounds).take constant.rangeCount, range.1 ≤ b ∧ b ≤ range.2

def scan : Scan ClassConstant := do
  Scan.word "static struct CharClass c"
  let number ← Scan.decimal
  Scan.word " = \x7b MAKE_LENGTHS("
  let singleCount ← Scan.decimal
  Scan.word ", "
  let rangeCount ← Scan.decimal
  Scan.word "), "
  let singles ← Scan.literal
  Scan.word ", "
  let bounds ← Scan.literal
  Scan.word " \x7d;"
  return { number, singleCount, rangeCount, singles, bounds }

def ofLine? (line : String) : Option ClassConstant := scan.line line

theorem pairs_bounds (ranges : List (UInt8 × UInt8)) :
    pairs (Constants.bounds ranges) = ranges := by
  induction ranges with
  | nil => rfl
  | cons range ranges ih =>
    change (range.1, range.2) :: pairs (Constants.bounds ranges) = range :: ranges
    rw [ih]

theorem length_bounds (ranges : List (UInt8 × UInt8)) :
    (Constants.bounds ranges).length = 2 * ranges.length := by
  induction ranges with
  | nil => rfl
  | cons range ranges ih =>
    change (Constants.bounds ranges).length + 2 = 2 * (ranges.length + 1)
    omega

/-- The definition of a class as it is printed. -/
def printed (number : Nat) (singles : Bytes) (ranges : List (UInt8 × UInt8)) : String :=
  "static struct CharClass c" ++ toString number ++ " = \x7b MAKE_LENGTHS(" ++
    toString singles.length ++ ", " ++ toString ranges.length ++ "), \"" ++ escape singles ++
    "\", \"" ++ escape (Constants.bounds ranges) ++ "\" \x7d;"

theorem toList_printed (number : Nat) (singles : Bytes) (ranges : List (UInt8 × UInt8)) :
    (printed number singles ranges).toList = "static struct CharClass c".toList ++
      ((toString number).toList ++ (" = \x7b MAKE_LENGTHS(".toList ++
        ((toString singles.length).toList ++ (", ".toList ++
          ((toString ranges.length).toList ++ ("), ".toList ++
            ('"' :: (escapeAfter 0 singles ++ '"' :: (", ".toList ++
              ('"' :: (escapeAfter 0 (Constants.bounds ranges) ++
                '"' :: " \x7d;".toList))))))))))) := by
  have hopen : "), \"".toList = "), ".toList ++ ['"'] := rfl
  have hbetween : "\", \"".toList = ['"'] ++ (", ".toList ++ ['"']) := rfl
  have hclose : "\" \x7d;".toList = ['"'] ++ " \x7d;".toList := rfl
  unfold printed
  simp only [String.toList_append, escape_toList]
  rw [hopen, hbetween, hclose]
  simp only [List.append_assoc, List.cons_append, List.nil_append]

theorem calm_printed (number : Nat) (singles : Bytes) (ranges : List (UInt8 × UInt8)) :
    Calm (printed number singles ranges).toList := by
  have hdecimal : ∀ n : Nat, '?' ∉ (toString n).toList := by
    intro n hmark
    exact absurd (isDigit_of_mem_toString hmark) (by decide)
  rw [toList_printed]
  apply calm_append (by decide)
  apply calm_append (hdecimal number)
  apply calm_append (by decide)
  apply calm_append (hdecimal singles.length)
  apply calm_append (by decide)
  apply calm_append (hdecimal ranges.length)
  apply calm_append (by decide)
  apply calm_literal
  apply calm_append (by decide)
  apply calm_literal
  exact (by decide : Calm " \x7d;".toList)

theorem ofLine?_printed (number : Nat) (singles : Bytes) (ranges : List (UInt8 × UInt8)) :
    ofLine? (printed number singles ranges) =
      some ⟨number, singles.length, ranges.length, singles, Constants.bounds ranges⟩ := by
  -- Each number ends where the word after it begins.
  have hequals : ∀ rest, (" = \x7b MAKE_LENGTHS(".toList ++ rest).takeWhile Char.isDigit = [] :=
    fun _ => rfl
  have hcomma : ∀ rest, (", ".toList ++ rest).takeWhile Char.isDigit = [] := fun _ => rfl
  have hclose : ∀ rest, ("), ".toList ++ rest).takeWhile Char.isDigit = [] := fun _ => rfl
  have hend : Scan.word " \x7d;" " \x7d;".toList = some ((), []) := Scan.word_append " \x7d;" []
  unfold ofLine? Scan.line
  rw [replaceTrigraphs_eq (calm_printed number singles ranges), toList_printed]
  unfold scan
  rw [Scan.bind_of (Scan.word_append _ _), Scan.bind_of (Scan.decimal_toString _ (hequals _)),
    Scan.bind_of (Scan.word_append _ _), Scan.bind_of (Scan.decimal_toString _ (hcomma _)),
    Scan.bind_of (Scan.word_append _ _), Scan.bind_of (Scan.decimal_toString _ (hclose _)),
    Scan.bind_of (Scan.word_append _ _), Scan.bind_of (Scan.literal_escape _ _),
    Scan.bind_of (Scan.word_append _ _), Scan.bind_of (Scan.literal_escape _ _),
    Scan.bind_of hend]
  rfl

/-- The counts take both strings whole. -/
theorem accepts_whole (number : Nat) (singles : Bytes) (ranges : List (UInt8 × UInt8))
    (b : UInt8) :
    Accepts ⟨number, singles.length, ranges.length, singles, Constants.bounds ranges⟩ b ↔
      b ∈ singles ∨ ∃ range ∈ ranges, range.1 ≤ b ∧ b ≤ range.2 := by
  unfold Accepts
  rw [pairs_bounds, List.take_length, List.take_length]

end ClassConstant

namespace Session

/-- Collected warnings keep no rule from being compiled. -/
theorem compiles_collecting {history : List Request} {rule : Rule} (h : .rule rule ∈ history) :
    ∃ function, Compiles .collecting history rule function := by
  obtain ⟨front, back, rfl⟩ := List.append_of_mem h
  have hagree := (serveAll .collecting {} front).compileRule_agree rule
  generalize (serveAll .collecting {} front).compileRule .strict rule = strict at hagree
  generalize hrule : (serveAll .collecting {} front).compileRule .collecting rule = result at hagree
  cases hagree with
  | quiet => exact ⟨_, front, back, _, rfl, hrule⟩
  | warned => exact ⟨_, front, back, _, rfl, hrule⟩

end Session

/-- The call for a class names a constant that is read from its printed definition. The counts are
those of its single bytes and of its pairs. If the class has no wide character that stands alone
and no wide lower bound, a byte is in the constant exactly when its code point is in some part.
The call says whether the class is inverted. -/
theorem classes_translate_exactly :
    (∀ history rule, .rule rule ∈ history →
      ∃ function, Session.Compiles .collecting history rule function) ∧
    ∀ policy history rule function, Session.Compiles policy history rule function →
      ∀ (i : Nat) (cls : CharClass),
        (rule.expression.sites 0 {})[i]? = some (.charClass cls) →
        ∃ (reference : Reference) (shown line : String) (number expected : Nat)
            (constant : ClassConstant),
          function.body.references[i]? = some reference ∧
          shown ∈ function.lines.toList ∧ Shows shown reference.text ∧
          reference.text = "parseCharClass(ctx, &c" ++ toString number ++ ", &e" ++
            toString expected ++ ", " ++ (if cls.inverted then "1" else "0") ++ ")" ∧
          (Session.serveAll policy {} history).constants.classes.definitions[number]? =
            some line ∧
          ClassConstant.ofLine? line = some constant ∧ constant.number = number ∧
          constant.singleCount = constant.singles.length ∧
          2 * constant.rangeCount = constant.bounds.length ∧
          (cls.parts.all ClassPart.beginsNarrow = true →
            ∀ b : UInt8, constant.Accepts b ↔ cls.Covers (Char.ofNat b.toNat)) := by
  refine ⟨fun history rule h => Session.compiles_collecting h, ?_⟩
  intro policy history rule function h i cls hsite
  obtain ⟨hreference, hnumber, -⟩ := h.site hsite
  have hheaded : (Session.serveAll policy {} history).Headed :=
    Session.Headed.serveAll ⟨rfl, rfl, rfl, rfl, rfl⟩ history
  obtain ⟨shown, hshown, hshows⟩ := function.shows_lines (List.mem_of_getElem? hreference)
  refine ⟨_, shown, _, _, _, _, hreference, hshown, hshows, Operand.text_charClass _ _ _,
    hheaded.definition_charClass hnumber, ClassConstant.ofLine?_printed _ _ _, rfl, rfl,
    (ClassConstant.length_bounds _).symm, ?_⟩
  intro hnarrow b
  rw [ClassConstant.accepts_whole, cls.yields_iff, cls.covers_iff hnarrow]

/-- Two marks, a range the wrong way round, a range of one character, and a range that goes beyond
the bytes. -/
theorem classes_translate_exactly_of_mixed :
    let cls : CharClass := ⟨[.single '?', .range 'z' 'a', .range 'b' 'b', .single '?',
      .range '\u00f0' '\u0100'], true, false, "[^?z-ab-b?\u00f0-\u0100]"⟩
    let rule : Rule := ⟨"R", .charClass none cls, none⟩
    let line := "static struct CharClass c0 = \x7b MAKE_LENGTHS(3, 2), " ++
      "\"?\\?b\", \"za\\360\\377\" \x7d;"
    cls.parts.all ClassPart.beginsNarrow = true ∧
    ∃ (function : RuleFunction) (constant : ClassConstant),
      Session.Compiles .collecting [.rule rule] rule function ∧
      ClassConstant.ofLine? line = some constant ∧
      ∀ b : UInt8, constant.Accepts b ↔ cls.Covers (Char.ofNat b.toNat) := by
  intro cls rule line
  have hnarrow : cls.parts.all ClassPart.beginsNarrow = true := by decide
  have hrule : .rule rule ∈ [Session.Request.rule rule] := List.mem_singleton_self _
  obtain ⟨function, hfunction⟩ := classes_translate_exactly.1 _ rule hrule
  obtain ⟨_, _, printed, _, _, constant, -, -, -, -, hprinted, hline, -, -, -, haccepts⟩ :=
    classes_translate_exactly.2 _ _ rule function hfunction 0 cls rfl
  have hdefinitions : (Session.serveAll .collecting {} [.rule rule]).constants.classes.definitions =
      [line] := by decide +kernel
  rw [hdefinitions] at hprinted
  obtain rfl := List.mem_singleton.mp (List.mem_of_getElem? hprinted)
  exact ⟨hnarrow, function, constant, hfunction, hline, haccepts hnarrow⟩

end Backtrack
