import Mathlib.Data.Nat.Digits.Defs
import Backtrack.Json.Document
import Backtrack.Json.Printer
import Backtrack.Proofs.Json.Values

/-!
# Reading what was written

A value is read back from its own text. The text is taken apart into the tokens of the value first,
and these then drive the reader to the value. Both steps go on with whatever follows, since a value
may stand inside another one.
-/

namespace Backtrack.Json

set_option autoImplicit false

namespace Token

theorem listAfter_length (word rest : List Char) :
    listAfter word.length (word ++ rest) = listAfter 0 rest := by
  induction word with
  | nil => rfl
  | cons c word ih => exact ih

/-- One token is read and the rest is left. -/
theorem listAfter_first (word : List Char) {c : Char} {rest : List Char} {token : Token}
    (hblank : isBlank c = false) (hfirst : first? c (word ++ rest) = some (token, word.length)) :
    listAfter 0 (c :: (word ++ rest)) = token :: listAfter 0 rest := by
  simp only [listAfter, hblank, hfirst, listAfter_length]
  rfl

theorem listAfter_mark (c : Char) {rest : List Char} {token : Token} (hblank : isBlank c = false)
    (hfirst : first? c rest = some (token, 0)) :
    listAfter 0 (c :: rest) = token :: listAfter 0 rest :=
  listAfter_first [] hblank hfirst

theorem hexDigit?_hexDigit {n : Nat} (h : n < 16) : hexDigit? (hexDigit n) = some n := by
  revert n
  decide

theorem unit?_low {n : Nat} (h : n < 0x20) :
    unit? '0' '0' (hexDigit (n / 16)) (hexDigit (n % 16)) = some n := by
  have hzero : hexDigit? '0' = some 0 := by decide
  have hhigh := hexDigit?_hexDigit (show n / 16 < 16 by omega)
  have hlow := hexDigit?_hexDigit (show n % 16 < 16 by omega)
  simp only [unit?, hzero, hhigh, hlow, Option.bind_eq_bind, Option.bind_some, Option.pure_def,
    Option.some.injEq]
  omega

/-- What stands for a character that is written between quotes. -/
def pieceOf (c : Char) : Piece :=
  if c ∈ ['\x08', '\x0c', '\n', '\r', '\t'] then .char c
  else if c.toNat < 0x20 then .unit c.toNat
  else .char c

theorem pieces?_plain {c : Char} (hquote : c ≠ '"') (hescape : c ≠ '\\') (hc : ¬ c.toNat < 0x20)
    (rest : List Char) :
    pieces? (c :: rest) =
      (pieces? rest).map fun (tail, count) => (.char c :: tail, count + 1) := by
  rw [pieces?, if_neg hc, Option.map_eq_bind]
  · rfl
  · exact fun h => absurd h hquote
  · intro _ _ _ _ _ h
    exact absurd h hescape
  · intro _ _ h
    exact absurd h hescape

theorem pieces?_escaped {c d : Char} (h : simpleEscape? c = some d) (rest : List Char) :
    pieces? ('\\' :: c :: rest) =
      (pieces? rest).map fun (tail, count) => (.char d :: tail, count + 2) := by
  rw [pieces?, h, Option.map_eq_bind]
  · rfl
  · rintro _ _ _ _ _ rfl
    cases h

theorem pieces?_unit {n : Nat} (h : n < 0x20) (rest : List Char) :
    pieces? ('\\' :: 'u' :: '0' :: '0' :: hexDigit (n / 16) :: hexDigit (n % 16) :: rest) =
      (pieces? rest).map fun (tail, count) => (.unit n :: tail, count + 6) := by
  rw [pieces?, unit?_low h, Option.map_eq_bind]
  rfl

theorem pieces?_quoteChar (c : Char) (rest : List Char) :
    pieces? (quoteChar c ++ rest) = (pieces? rest).map fun (tail, count) =>
      (pieceOf c :: tail, count + (quoteChar c).length) := by
  unfold quoteChar
  split_ifs with hquote hescape hb hf hn hr ht hcontrol
  · subst hquote
    exact pieces?_escaped rfl rest
  · subst hescape
    exact pieces?_escaped rfl rest
  · subst hb
    exact pieces?_escaped rfl rest
  · subst hf
    exact pieces?_escaped rfl rest
  · subst hn
    exact pieces?_escaped rfl rest
  · subst hr
    exact pieces?_escaped rfl rest
  · subst ht
    exact pieces?_escaped rfl rest
  · have hpiece : pieceOf c = .unit c.toNat := by
      simp [pieceOf, hb, hf, hn, hr, ht, hcontrol]
    rw [hpiece]
    exact pieces?_unit hcontrol rest
  · have hpiece : pieceOf c = .char c := by simp [pieceOf, hcontrol]
    rw [hpiece]
    exact pieces?_plain hquote hescape hcontrol rest

theorem join?_unit {code : Nat} (h : code < 0x20) (rest : List Piece) :
    join? (.unit code :: rest) = (join? rest).map (Char.ofNat code :: ·) := by
  have hhigh : isHighSurrogate code = false := decide_eq_false (by omega)
  have hlow : isLowSurrogate code = false := decide_eq_false (by omega)
  match rest with
  | [] => simp [join?, hhigh, hlow]
  | .unit _ :: _ => simp [join?, hhigh, hlow]
  | .char _ :: _ => simp [join?, hhigh, hlow]

theorem join?_pieceOf (c : Char) (rest : List Piece) :
    join? (pieceOf c :: rest) = (join? rest).map (c :: ·) := by
  unfold pieceOf
  split_ifs with hshort hcontrol
  · rfl
  · rw [join?_unit hcontrol, Char.ofNat_toNat]
  · rfl

/-- What was quoted is read as far as the closing quote. -/
theorem string?_quoted (s : String) (rest : List Char) :
    string? (s.toList.flatMap quoteChar ++ '"' :: rest) =
      some (.string s, (s.toList.flatMap quoteChar).length + 1) := by
  have hpieces (chars : List Char) : pieces? (chars.flatMap quoteChar ++ '"' :: rest) =
      some (chars.map pieceOf, (chars.flatMap quoteChar).length + 1) := by
    induction chars with
    | nil => rfl
    | cons c chars ih =>
      rw [List.flatMap_cons, List.append_assoc, pieces?_quoteChar, ih]
      simp only [Option.map_some, List.map_cons, List.length_append]
      congr 2
      omega
  have hjoin (chars : List Char) : join? (chars.map pieceOf) = some chars := by
    induction chars with
    | nil => rfl
    | cons c chars ih => rw [List.map_cons, join?_pieceOf, ih, Option.map_some]
  unfold string?
  rw [hpieces]
  simp [hjoin]

theorem listAfter_quote (s : String) (rest : List Char) :
    listAfter 0 ((quote s).toList ++ rest) = .string s :: listAfter 0 rest := by
  have hquote : (quote s).toList ++ rest =
      '"' :: ((s.toList.flatMap quoteChar ++ ['"']) ++ rest) := by
    rw [quote, String.toList_ofList, List.cons_append]
  rw [hquote]
  apply listAfter_first _ rfl
  rw [List.append_assoc, List.length_append]
  exact string?_quoted s rest

theorem listAfter_key (key : String) (rest : List Char) :
    listAfter 0 ((quote key).toList ++ ':' :: rest) =
      .string key :: .colon :: listAfter 0 rest := by
  rw [listAfter_quote]
  rfl

/-- The text does not go on with a character of `p`. -/
def StartsWithout (p : Char → Prop) (rest : List Char) : Prop := ∀ c ∈ rest.head?, ¬ p c

theorem digits_append {run rest : List Char} (hrun : ∀ c ∈ run, c.isDigit = true)
    (hrest : StartsWithout (·.isDigit = true) rest) : digits (run ++ rest) = run := by
  unfold digits
  rw [List.takeWhile_append_of_pos hrun]
  cases rest with
  | nil => exact List.append_nil run
  | cons c rest =>
    rw [List.takeWhile_cons_of_neg (hrest c rfl), List.append_nil]

theorem isDigit_toDigits {n : Nat} {c : Char} (h : c ∈ Nat.toDigits 10 n) : c.isDigit = true :=
  Nat.isDigit_of_mem_toDigits (by decide) (by decide) h

theorem ofDigits_toDigits (n : Nat) : ofDigits (Nat.toDigits 10 n) = n := by
  have h := @Nat.ofDigitChars_ten_toDigits n
  rw [Nat.ofDigitChars_eq_foldl] at h
  unfold ofDigits
  simpa only [Nat.mul_comm] using h

/-- Only zero is written with a zero in front. -/
theorem eq_zero_of_toDigits {n : Nat} {tail : List Char} (h : Nat.toDigits 10 n = '0' :: tail) :
    n = 0 := by
  induction n using Nat.strongRecOn generalizing tail with
  | ind n ih =>
    rw [Nat.toDigits_eq_if (by decide)] at h
    split at h
    · exact Nat.digitChar_eq_zero.mp (List.cons.inj h).1
    · cases hfront : Nat.toDigits 10 (n / 10) with
      | nil => exact absurd hfront Nat.toDigits_ne_nil
      | cons c front =>
        rw [hfront, List.cons_append] at h
        cases (List.cons.inj h).1
        have hzero := ih (n / 10) (by omega) hfront
        omega

theorem wholeDigits?_toDigits (n : Nat) {rest : List Char}
    (hrest : StartsWithout (·.isDigit = true) rest) :
    wholeDigits? (Nat.toDigits 10 n ++ rest) = some (Nat.toDigits 10 n) := by
  unfold wholeDigits?
  rw [digits_append (fun _ => isDigit_toDigits) hrest]
  split
  · rename_i hnil
    exact absurd hnil Nat.toDigits_ne_nil
  · rename_i hzero
    rw [hzero]
  · rename_i hother htail
    rw [eq_zero_of_toDigits htail, Nat.toDigits_zero] at htail
    exact absurd (List.cons.inj htail).2.symm hother
  · rfl

theorem fractionDigits?_none {rest : List Char} (h : StartsWithout (· = '.') rest) :
    fractionDigits? rest = some [] := by
  unfold fractionDigits?
  split
  · exact absurd rfl (h _ rfl)
  · rfl

theorem exponent?_none {rest : List Char} (h : StartsWithout (fun c => c = 'e' ∨ c = 'E') rest) :
    exponent? rest = some (0, 0) := by
  cases rest with
  | nil => rfl
  | cons c rest => rw [exponent?, if_neg (h c rfl)]

theorem exists_toDigits_cons (n : Nat) :
    ∃ c tail, Nat.toDigits 10 n = c :: tail ∧ c.isDigit = true := by
  obtain ⟨c, tail, h⟩ := List.exists_cons_of_ne_nil (Nat.toDigits_ne_nil (n := n) (b := 10))
  exact ⟨c, tail, h, isDigit_toDigits (h ▸ List.mem_cons_self)⟩

theorem exponentSign_digit {c : Char} (h : c.isDigit = true) (rest : List Char) :
    exponentSign (c :: rest) = (false, 0) := by
  unfold exponentSign
  split
  · rename_i heq
    cases heq
    cases h
  · rename_i heq
    cases heq
    cases h
  · rfl

theorem exponent?_written (e : Int) {rest : List Char}
    (hrest : StartsWithout (·.isDigit = true) rest) :
    exponent? ('e' :: (e.repr.toList ++ rest)) = some (e, e.repr.toList.length + 1) := by
  have hrun (n : Nat) : digits (Nat.toDigits 10 n ++ rest) = Nat.toDigits 10 n :=
    digits_append (fun _ => isDigit_toDigits) hrest
  cases e with
  | ofNat n =>
    have htext : (Int.ofNat n).repr.toList = Nat.toDigits 10 n := Nat.toList_repr
    have hsign : exponentSign (Nat.toDigits 10 n ++ rest) = (false, 0) := by
      obtain ⟨c, tail, hcons, hdigit⟩ := exists_toDigits_cons n
      rw [hcons, List.cons_append, exponentSign_digit hdigit]
    rw [exponent?, if_pos (Or.inl rfl), htext, hsign]
    simp [hrun, ofDigits_toDigits]
    omega
  | negSucc n =>
    have htext : (Int.negSucc n).repr.toList = '-' :: Nat.toDigits 10 (n + 1) := by
      change ("-" ++ (n + 1).repr).toList = _
      rw [String.toList_append, Nat.toList_repr]
      rfl
    rw [exponent?, if_pos (Or.inl rfl), htext]
    simp [exponentSign, hrun, ofDigits_toDigits]
    omega

end Token

namespace Number

def isNegative : Number → Bool
  | .whole negative _ | .scaled negative _ _ => negative

/-- The text of a number without its sign. -/
def unsigned : Number → List Char
  | .whole _ magnitude => Nat.toDigits 10 magnitude
  | .scaled _ coefficient exponent =>
    Nat.toDigits 10 coefficient ++ 'e' :: exponent.repr.toList

theorem toList_render (n : Number) :
    n.render.toList = if n.isNegative then '-' :: n.unsigned else n.unsigned := by
  cases n with
  | whole negative magnitude => cases negative <;> simp [render, isNegative, unsigned]
  | scaled negative coefficient exponent =>
    cases negative <;> simp [render, isNegative, unsigned]

theorem exists_unsigned_cons (n : Number) :
    ∃ c tail, n.unsigned = c :: tail ∧ c.isDigit = true := by
  cases n with
  | whole negative magnitude => exact Token.exists_toDigits_cons magnitude
  | scaled negative coefficient exponent =>
    obtain ⟨c, tail, hcons, hdigit⟩ := Token.exists_toDigits_cons coefficient
    exact ⟨c, _, by rw [unsigned, hcons, List.cons_append], hdigit⟩

end Number

namespace Token

/-- What may stand after a value. -/
def Follows (rest : List Char) : Prop := ∀ c ∈ rest.head?, c = ',' ∨ c = ']' ∨ c = '\x7d'

theorem Follows.without {rest : List Char} (h : Follows rest) {p : Char → Prop}
    (hp : ¬ p ',' ∧ ¬ p ']' ∧ ¬ p '\x7d') : StartsWithout p rest := by
  intro c hc
  rcases h c hc with rfl | rfl | rfl
  · exact hp.1
  · exact hp.2.1
  · exact hp.2.2

theorem unsigned?_unsigned (n : Number) {rest : List Char} (hrest : Follows rest) :
    unsigned? n.isNegative (n.unsigned ++ rest) = some (n, n.unsigned.length) := by
  have hdigit : StartsWithout (·.isDigit = true) rest := hrest.without (by decide)
  cases n with
  | whole negative magnitude =>
    have hpoint : StartsWithout (· = '.') rest := hrest.without (by decide)
    have hmark : StartsWithout (fun c => c = 'e' ∨ c = 'E') rest := hrest.without (by decide)
    simp [unsigned?, Number.unsigned, Number.isNegative, wholeDigits?_toDigits _ hdigit,
      fractionDigits?_none hpoint, exponent?_none hmark, ofDigits_toDigits]
  | scaled negative coefficient exponent =>
    have hpoint : StartsWithout (· = '.') ('e' :: (exponent.repr.toList ++ rest)) := by
      rintro _ ⟨⟩
      decide
    have hmark : StartsWithout (·.isDigit = true) ('e' :: (exponent.repr.toList ++ rest)) := by
      rintro _ ⟨⟩
      decide
    simp [unsigned?, Number.unsigned, Number.isNegative, wholeDigits?_toDigits _ hmark,
      fractionDigits?_none hpoint, exponent?_written _ hdigit, ofDigits_toDigits]

theorem first?_digit {c : Char} (h : c.isDigit = true) (rest : List Char) :
    first? c rest =
      (unsigned? false (c :: rest)).map fun (n, count) => (ofNumber n, count - 1) := by
  unfold first?
  split
  all_goals first | rfl | cases h

theorem isBlank_digit {c : Char} (h : c.isDigit = true) : isBlank c = false := by
  unfold isBlank
  have hne (d : Char) (hd : d.isDigit = false) : c ≠ d := by
    rintro rfl
    rw [h] at hd
    cases hd
  simp [hne ' ' rfl, hne '\t' rfl, hne '\n' rfl, hne '\r' rfl]

theorem listAfter_number {n : Number} (hfits : n.fits = true) {rest : List Char}
    (hrest : Follows rest) :
    listAfter 0 (n.render.toList ++ rest) = .number n :: listAfter 0 rest := by
  have hread := unsigned?_unsigned n hrest
  have htoken : ofNumber n = .number n := if_pos hfits
  rw [n.toList_render]
  cases hsign : n.isNegative with
  | true =>
    -- The sign alone decides that a number is read.
    rw [hsign] at hread
    apply listAfter_first _ rfl
    simp [first?, hread, htoken]
  | false =>
    rw [hsign] at hread
    obtain ⟨c, tail, hcons, hdigit⟩ := n.exists_unsigned_cons
    rw [hcons] at hread ⊢
    apply listAfter_first _ (isBlank_digit hdigit)
    rw [first?_digit hdigit, ← List.cons_append, hread]
    simp [htoken]

mutual

/-- The tokens of a value. -/
def ofValue : Value → List Token
  | .null => [.null]
  | .bool b => [.bool b]
  | .number n => [.number n]
  | .string s => [.string s]
  | .array [] => [.openArray, .closeArray]
  | .array (item :: rest) => .openArray :: (ofValue item ++ ofItems rest ++ [.closeArray])
  | .object [] => [.openObject, .closeObject]
  | .object ((key, value) :: rest) =>
    .openObject :: .string key :: .colon :: (ofValue value ++ ofMembers rest ++ [.closeObject])
  | .flaw cause => nomatch cause

def ofItems : List Value → List Token
  | [] => []
  | item :: rest => .comma :: (ofValue item ++ ofItems rest)

def ofMembers : List (String × Value) → List Token
  | [] => []
  | (key, value) :: rest => .comma :: .string key :: .colon :: (ofValue value ++ ofMembers rest)

end

theorem follows_renderItems (items : List Value) {rest : List Char} (h : Follows rest) :
    Follows ((renderItems items).toList ++ rest) := by
  cases items with
  | nil => exact h
  | cons item items =>
    rw [renderItems]
    simp [Follows]

theorem follows_renderMembers (members : List (String × Value)) {rest : List Char}
    (h : Follows rest) : Follows ((renderMembers members).toList ++ rest) := by
  cases members with
  | nil => exact h
  | cons member members =>
    rw [renderMembers]
    simp [Follows]

/-- Every number inside has a value. -/
abbrev Fits : Value → Prop := Everywhere (·.fits = true) fun _ => True

mutual

theorem listAfter_render : ∀ {v : Value}, Fits v → ∀ {rest : List Char}, Follows rest →
    listAfter 0 ((render v).toList ++ rest) = ofValue v ++ listAfter 0 rest
  | .null, _, rest, _ => listAfter_first ['u', 'l', 'l'] rfl rfl
  | .bool true, _, rest, _ => listAfter_first ['r', 'u', 'e'] rfl rfl
  | .bool false, _, rest, _ => listAfter_first ['a', 'l', 's', 'e'] rfl rfl
  | .number n, .number here, rest, hrest => listAfter_number here hrest
  | .string s, _, rest, _ => listAfter_quote s rest
  | .array [], _, rest, _ => rfl
  | .array (item :: items), .array inside, rest, hrest => by
    -- A number ends only where something else begins, so what follows goes with the induction.
    have hclose : Follows (']' :: rest) := by simp [Follows]
    have hitem : Fits item := inside item List.mem_cons_self
    have hitems : ∀ item ∈ items, Fits item := fun item h => inside item (List.mem_cons_of_mem _ h)
    have htext : (render (.array (item :: items))).toList ++ rest =
        '[' :: ((render item).toList ++ ((renderItems items).toList ++ ']' :: rest)) := by
      simp [render]
    calc listAfter 0 ((render (.array (item :: items))).toList ++ rest)
      _ = .openArray :: listAfter 0
            ((render item).toList ++ ((renderItems items).toList ++ ']' :: rest)) := by
          rw [htext, listAfter_mark '[' rfl rfl]
      _ = .openArray :: (ofValue item ++ (ofItems items ++ .closeArray :: listAfter 0 rest)) := by
          rw [listAfter_render hitem (follows_renderItems items hclose),
            listAfter_renderItems hitems hclose, listAfter_mark ']' rfl rfl]
      _ = ofValue (.array (item :: items)) ++ listAfter 0 rest := by
          simp [ofValue]
  | .object [], _, rest, _ => rfl
  | .object ((key, value) :: members), .object _ inside, rest, hrest => by
    have hclose : Follows ('\x7d' :: rest) := by simp [Follows]
    have hvalue : Fits value := inside key value List.mem_cons_self
    have hmembers : ∀ key value, (key, value) ∈ members → Fits value :=
      fun key value h => inside key value (List.mem_cons_of_mem _ h)
    have htext : (render (.object ((key, value) :: members))).toList ++ rest =
        '\x7b' :: ((quote key).toList ++ ':' ::
          ((render value).toList ++ ((renderMembers members).toList ++ '\x7d' :: rest))) := by
      simp [render]
    calc listAfter 0 ((render (.object ((key, value) :: members))).toList ++ rest)
      _ = .openObject :: .string key :: .colon :: listAfter 0
            ((render value).toList ++ ((renderMembers members).toList ++ '\x7d' :: rest)) := by
          rw [htext, listAfter_mark '\x7b' rfl rfl, listAfter_key]
      _ = .openObject :: .string key :: .colon ::
            (ofValue value ++ (ofMembers members ++ .closeObject :: listAfter 0 rest)) := by
          rw [listAfter_render hvalue (follows_renderMembers members hclose),
            listAfter_renderMembers hmembers hclose, listAfter_mark '\x7d' rfl rfl]
      _ = ofValue (.object ((key, value) :: members)) ++ listAfter 0 rest := by
          simp [ofValue]

theorem listAfter_renderItems : ∀ {items : List Value}, (∀ item ∈ items, Fits item) →
    ∀ {rest : List Char}, Follows rest →
      listAfter 0 ((renderItems items).toList ++ rest) = ofItems items ++ listAfter 0 rest
  | [], _, _, _ => rfl
  | item :: items, h, rest, hrest => by
    have hitems : ∀ item ∈ items, Fits item := fun item hmem => h item (List.mem_cons_of_mem _ hmem)
    have htext : (renderItems (item :: items)).toList ++ rest =
        ',' :: ((render item).toList ++ ((renderItems items).toList ++ rest)) := by
      simp [renderItems]
    rw [htext, listAfter_mark ',' rfl rfl, listAfter_render (h item List.mem_cons_self)
      (follows_renderItems items hrest), listAfter_renderItems hitems hrest]
    simp [ofItems]

theorem listAfter_renderMembers : ∀ {members : List (String × Value)},
    (∀ key value, (key, value) ∈ members → Fits value) →
    ∀ {rest : List Char}, Follows rest →
      listAfter 0 ((renderMembers members).toList ++ rest) = ofMembers members ++ listAfter 0 rest
  | [], _, _, _ => rfl
  | (key, value) :: members, h, rest, hrest => by
    have hmembers : ∀ key value, (key, value) ∈ members → Fits value :=
      fun key value hmem => h key value (List.mem_cons_of_mem _ hmem)
    have htext : (renderMembers ((key, value) :: members)).toList ++ rest =
        ',' :: ((quote key).toList ++ ':' ::
          ((render value).toList ++ ((renderMembers members).toList ++ rest))) := by
      simp [renderMembers]
    rw [htext, listAfter_mark ',' rfl rfl, listAfter_key,
      listAfter_render (h key value List.mem_cons_self) (follows_renderMembers members hrest),
      listAfter_renderMembers hmembers hrest]
    simp [ofMembers]

end

end Token

namespace Document

theorem run_cons {reader next : Reader} {token : Token} (h : reader.step? token = some next)
    (rest : List Token) : run reader (token :: rest) = run next rest := by
  rw [run, h]

/-- In an empty array a value is due as anywhere else. -/
theorem run_item (stack : List Frame) (v : Value) (rest : List Token) :
    run (.item stack) (Token.ofValue v ++ rest) =
      run (.value (.items [] :: stack)) (Token.ofValue v ++ rest) := by
  match v with
  | .null | .bool _ | .number _ | .string _ | .array [] | .object [] => rfl
  | .array (_ :: _) | .object (_ :: _) => rfl

theorem run_key (before : List (String × Json Flaw)) (key : String) (stack : List Frame)
    (rest : List Token) :
    run (.key before stack) (.string key :: .colon :: rest) =
      run (.value (.members before key :: stack)) rest := by
  cases before <;> rfl

mutual

theorem run_ofValue : ∀ (v : Value) (stack : List Frame) (rest : List Token),
    run (.value stack) (Token.ofValue v ++ rest) = run (.after (ofValue v) stack) rest
  | .null, _, _ | .bool _, _, _ | .number _, _, _ | .string _, _, _ => rfl
  | .array [], _, _ | .object [], _, _ => rfl
  | .array (item :: items), stack, rest => by
    calc run (.value stack) (Token.ofValue (.array (item :: items)) ++ rest)
      _ = run (.item stack)
            (Token.ofValue item ++ (Token.ofItems items ++ .closeArray :: rest)) := by
          rw [Token.ofValue, List.cons_append, run_cons rfl]
          simp only [List.append_assoc, List.cons_append, List.nil_append]
      _ = run (.after (ofValue (.array (item :: items))) stack) rest := by
          rw [run_item, run_ofValue item, run_ofItems items]
          rfl
  | .object ((key, value) :: members), stack, rest => by
    calc run (.value stack) (Token.ofValue (.object ((key, value) :: members)) ++ rest)
      _ = run (.key [] stack) (.string key :: .colon ::
            (Token.ofValue value ++ (Token.ofMembers members ++ .closeObject :: rest))) := by
          rw [Token.ofValue, List.cons_append, run_cons rfl]
          simp only [List.append_assoc, List.cons_append, List.nil_append]
      _ = run (.after (ofValue (.object ((key, value) :: members))) stack) rest := by
          rw [run_key, run_ofValue value, run_ofMembers members]
          rfl

theorem run_ofItems : ∀ (items : List Value) (v : Json Flaw) (before : List (Json Flaw))
    (stack : List Frame) (rest : List Token),
    run (.after v (.items before :: stack)) (Token.ofItems items ++ .closeArray :: rest) =
      run (.after (.array ((v :: before).reverse ++ ofItems items)) stack) rest
  | [], v, before, stack, rest => by
    rw [Token.ofItems, List.nil_append, run_cons rfl, ofItems, List.append_nil]
  | item :: items, v, before, stack, rest => by
    rw [Token.ofItems, List.cons_append, run_cons rfl, List.append_assoc, run_ofValue item,
      run_ofItems items, ofItems, List.reverse_cons, List.append_assoc]
    rfl

theorem run_ofMembers : ∀ (members : List (String × Value)) (name : String) (v : Json Flaw)
    (before : List (String × Json Flaw)) (stack : List Frame) (rest : List Token),
    run (.after v (.members before name :: stack))
        (Token.ofMembers members ++ .closeObject :: rest) =
      run (.after (.object (((name, v) :: before).reverse ++ ofMembers members)) stack) rest
  | [], name, v, before, stack, rest => by
    rw [Token.ofMembers, List.nil_append, run_cons rfl, ofMembers, List.append_nil]
  | (key, value) :: members, name, v, before, stack, rest => by
    simp only [Token.ofMembers, List.cons_append, List.append_assoc]
    rw [run_cons rfl, run_key, run_ofValue value, run_ofMembers members, ofMembers,
      List.reverse_cons, List.append_assoc]
    rfl

end

end Document

/-- A value is read back from its text, as far as its numbers have values and it nests no deeper
than allowed. -/
theorem parse?_render {v : Value} (hfits : Token.Fits v) (hdepth : v.depth ≤ maxDepth) :
    parse? (render v) = some v := by
  have htokens : Token.list (render v) = Token.ofValue v := by
    have h := @Token.listAfter_render v hfits [] nofun
    rwa [List.append_nil, Token.listAfter, List.append_nil] at h
  have hdocument : Document.ofString (render v) = ⟨ofValue v, true⟩ := by
    have h := Document.run_ofValue v [] []
    rw [List.append_nil] at h
    rw [Document.ofString, htokens, h]
    rfl
  simp [parse?, hdocument, depth_ofValue, hdepth]

end Backtrack.Json
