import Backtrack.Lines

/-!
# Braces and indentation

A text is read line by line while the open braces are counted. Lines that are laid out by their
braces are indented by two spaces for each brace that is open, and a line that begins with a closing
brace stands one level further out, with the line that opened the block.
-/

namespace Backtrack

set_option autoImplicit false

/-- How many more braces a text opens than it closes. -/
def openBraces (text : List Char) : Int := (text.count '\x7b' : Int) - text.count '\x7d'

/-- The number of spaces in front of a line. -/
def indentation (line : List Char) : Nat := (line.takeWhile (· = ' ')).length

/-- After its spaces, the line begins with a closing brace. -/
def Closes (line : List Char) : Prop := (line.dropWhile (· = ' ')).head? = some '\x7d'

instance (line : List Char) : Decidable (Closes line) := inferInstanceAs (Decidable (_ = _))

/-- No brace and no line break is in the text. -/
def Bare (text : String) : Prop := ∀ c ∈ text.toList, c ≠ '\x7b' ∧ c ≠ '\x7d' ∧ c ≠ '\n'

instance (text : String) : Decidable (Bare text) := List.decidableBAll _ _

theorem Bare.append {front back : String} (hfront : Bare front) (hback : Bare back) :
    Bare (front ++ back) := by
  unfold Bare
  rw [String.toList_append]
  exact List.forall_mem_append.mpr ⟨hfront, hback⟩

theorem Bare.around {front words back : String} (h : Bare words) (hfront : Bare front)
    (hback : Bare back) : Bare (front ++ words ++ back) := (hfront.append h).append hback

namespace Bracketing

/-- The number of open braces after a text; none where a brace is closed that is not open. -/
def openAfter (level : Nat) : List Char → Option Nat
  | [] => some level
  | c :: rest =>
    if c = '\x7b' then openAfter (level + 1) rest
    else if c = '\x7d' then if level = 0 then none else openAfter (level - 1) rest
    else openAfter level rest

theorem openAfter_closing (level : Nat) (rest : List Char) :
    openAfter (level + 1) ('\x7d' :: rest) = openAfter level rest := rfl

theorem openAfter_other {c : Char} (hopen : c ≠ '\x7b') (hclose : c ≠ '\x7d') (level : Nat)
    (rest : List Char) : openAfter level (c :: rest) = openAfter level rest := by
  rw [openAfter, if_neg hopen, if_neg hclose]

theorem openAfter_append (level : Nat) (first second : List Char) :
    openAfter level (first ++ second) = (openAfter level first).bind (openAfter · second) := by
  induction first generalizing level with
  | nil => rfl
  | cons c rest ih =>
    simp only [List.cons_append, openAfter, ih]
    split
    · rfl
    · split
      · split
        · rfl
        · rfl
      · rfl

theorem openAfter_bare {text : String} (h : Bare text) (level : Nat) :
    openAfter level text.toList = some level := by
  unfold Bare at h
  generalize text.toList = cs at h
  induction cs with
  | nil => rfl
  | cons c rest ih =>
    obtain ⟨⟨hopen, hclose, -⟩, hrest⟩ := List.forall_mem_cons.mp h
    rw [openAfter_other hopen hclose, ih hrest]

theorem openAfter_spaces (level count : Nat) (rest : List Char) :
    openAfter level (List.replicate count ' ' ++ rest) = openAfter level rest := by
  induction count with
  | zero => rfl
  | succ count ih => exact ih

/-- Braces that were open before stay open. -/
theorem openAfter_add {level after : Nat} {text : List Char} (h : openAfter level text = some after)
    (more : Nat) : openAfter (level + more) text = some (after + more) := by
  induction text generalizing level with
  | nil =>
    cases h
    rfl
  | cons c rest ih =>
    by_cases hopen : c = '\x7b'
    · subst hopen
      have hrest := ih h
      rwa [Nat.add_right_comm] at hrest
    · by_cases hclose : c = '\x7d'
      · subst hclose
        cases level with
        | zero => cases h
        | succ level =>
          have hrest := ih h
          rwa [Nat.add_right_comm]
      · rw [openAfter_other hopen hclose] at h ⊢
        exact ih h

theorem openBraces_cons (c : Char) (rest : List Char) :
    openBraces (c :: rest) =
      openBraces rest + (if c = '\x7b' then 1 else 0) - if c = '\x7d' then 1 else 0 := by
  simp only [openBraces, List.count_cons, beq_iff_eq]
  split <;> split <;> omega

/-- Where the count does not fail, it is that of the braces in the text. -/
theorem openAfter_eq {level after : Nat} {text : List Char} (h : openAfter level text = some after) :
    (after : Int) = level + openBraces text := by
  induction text generalizing level with
  | nil =>
    cases h
    rfl
  | cons c rest ih =>
    rw [openBraces_cons]
    by_cases hopen : c = '\x7b'
    · subst hopen
      have hrest := ih h
      rw [if_pos rfl, if_neg (by decide)]
      omega
    · rw [if_neg hopen]
      by_cases hclose : c = '\x7d'
      · subst hclose
        cases level with
        | zero => cases h
        | succ level =>
          have hrest := ih h
          rw [if_pos rfl]
          omega
      · rw [openAfter_other hopen hclose] at h
        have hrest := ih h
        rw [if_neg hclose]
        omega

/-- A count that does not fail is nowhere negative. -/
theorem openBraces_nonneg {text front : List Char} {after : Nat}
    (h : openAfter 0 text = some after) (hfront : front <+: text) : 0 ≤ openBraces front := by
  obtain ⟨back, rfl⟩ := hfront
  rw [openAfter_append] at h
  obtain ⟨between, hbetween, -⟩ := Option.bind_eq_some_iff.mp h
  have heq := openAfter_eq hbetween
  omega

theorem openAfter_intercalate (level : Nat) (lines : List (List Char)) :
    openAfter level (['\n'].intercalate lines) = openAfter level lines.flatten := by
  induction lines generalizing level with
  | nil => rfl
  | cons line rest ih =>
    cases rest with
    | nil => rw [List.intercalate_singleton, List.flatten_singleton]
    | cons next rest =>
      rw [List.intercalate_cons_cons, List.append_assoc, openAfter_append, List.flatten_cons,
        openAfter_append]
      congr 1
      funext between
      exact (openAfter_other (by decide) (by decide) _ _).trans (ih between)

/-- A line where so many braces are open before and after it. A line that is not empty is indented by
its level, which is one less where it begins with a closing brace; it closes nothing below its level,
and it leaves at most one brace open. -/
inductive Fits : Nat → List Char → Nat → Prop
  | empty (level : Nat) : Fits level [] level
  | plain {level more : Nat} {c : Char} {rest : List Char} (hspace : c ≠ ' ') (hclose : c ≠ '\x7d')
      (hbreak : '\n' ∉ c :: rest) (hopen : openAfter 0 (c :: rest) = some more) (hmore : more ≤ 1) :
      Fits level (List.replicate (2 * level) ' ' ++ c :: rest) (level + more)
  | closing {level more : Nat} {rest : List Char} (hbreak : '\n' ∉ rest)
      (hopen : openAfter 0 rest = some more) (hmore : more ≤ 1) :
      Fits (level + 1) (List.replicate (2 * level) ' ' ++ '\x7d' :: rest) (level + more)

theorem indentation_spaces (count : Nat) {c : Char} (hc : c ≠ ' ') (rest : List Char) :
    indentation (List.replicate count ' ' ++ c :: rest) = count := by
  have hspaces : ∀ d ∈ List.replicate count ' ', decide (d = ' ') = true := by
    intro d hd
    rw [List.eq_of_mem_replicate hd]
    rfl
  rw [indentation, List.takeWhile_append_of_pos hspaces, List.takeWhile_cons_of_neg (by simp [hc]),
    List.append_nil, List.length_replicate]

theorem closes_spaces_iff (count : Nat) {c : Char} (hc : c ≠ ' ') (rest : List Char) :
    Closes (List.replicate count ' ' ++ c :: rest) ↔ c = '\x7d' := by
  have hspaces : ∀ d ∈ List.replicate count ' ', decide (d = ' ') = true := by
    intro d hd
    rw [List.eq_of_mem_replicate hd]
    rfl
  rw [Closes, List.dropWhile_append_of_pos hspaces, List.dropWhile_cons_of_neg (by simp [hc]),
    List.head?_cons, Option.some.injEq]

namespace Fits

variable {before after : Nat} {line : List Char}

theorem openAfter_eq_some (h : Fits before line after) : openAfter before line = some after := by
  cases h with
  | empty => rfl
  | plain hspace hclose hbreak hopen hmore =>
    have hlevel := openAfter_add hopen before
    rw [openAfter_spaces, Nat.add_comm]
    rwa [Nat.zero_add] at hlevel
  | @closing level more rest hbreak hopen hmore =>
    have hlevel := openAfter_add hopen level
    rw [openAfter_spaces, openAfter_closing, Nat.add_comm]
    rwa [Nat.zero_add] at hlevel

theorem no_break (h : Fits before line after) : '\n' ∉ line := by
  have hspaces : ∀ {count : Nat} {rest : List Char}, '\n' ∉ rest →
      '\n' ∉ List.replicate count ' ' ++ rest := by
    intro count rest hrest hmem
    rcases List.mem_append.mp hmem with hmem | hmem
    · exact absurd (List.eq_of_mem_replicate hmem) (by decide)
    · exact hrest hmem
  cases h with
  | empty => exact List.not_mem_nil
  | plain hspace hclose hbreak hopen hmore => exact hspaces hbreak
  | closing hbreak hopen hmore =>
    apply hspaces
    intro hmem
    rcases List.mem_cons.mp hmem with heq | hmem
    · exact absurd heq (by decide)
    · exact hbreak hmem

theorem indentation_eq (h : Fits before line after) (hne : line ≠ []) :
    indentation line + (if Closes line then 2 else 0) = 2 * before := by
  cases h with
  | empty => exact absurd rfl hne
  | plain hspace hclose hbreak hopen hmore =>
    rw [indentation_spaces _ hspace, if_neg fun h => hclose ((closes_spaces_iff _ hspace _).mp h)]
    rfl
  | closing hbreak hopen hmore =>
    rw [indentation_spaces _ (by decide), if_pos ((closes_spaces_iff _ (by decide) _).mpr rfl)]
    omega

/-- A line that leaves a brace open stands one level out of the block that follows. -/
theorem indentation_of_open (h : Fits before line after) (hne : line ≠ [])
    (hopen : indentation line < 2 * after) : indentation line + 2 = 2 * after := by
  cases h with
  | empty => exact absurd rfl hne
  | plain hspace hclose hbreak hrun hmore =>
    rw [indentation_spaces _ hspace] at hopen ⊢
    omega
  | closing hbreak hrun hmore =>
    rw [indentation_spaces _ (by decide)] at hopen ⊢
    omega

end Fits

/-- Lines one after another. After each of them at least `floor` braces are open. -/
inductive Laid (floor : Nat) : Nat → List (List Char) → Nat → Prop
  | nil (level : Nat) : Laid floor level [] level
  | cons {before between after : Nat} {line : List Char} {rest : List (List Char)}
      (hline : Fits before line between) (hfloor : floor ≤ between)
      (hrest : Laid floor between rest after) : Laid floor before (line :: rest) after

namespace Laid

variable {floor before after : Nat} {lines : List (List Char)}

theorem single {line : List Char} (h : Fits before line after) (hfloor : floor ≤ after) :
    Laid floor before [line] after := .cons h hfloor (.nil after)

theorem append {between : Nat} {first second : List (List Char)}
    (hfirst : Laid floor before first between) (hsecond : Laid floor between second after) :
    Laid floor before (first ++ second) after := by
  induction hfirst with
  | nil => exact hsecond
  | cons hline hfloor _ ih => exact .cons hline hfloor (ih hsecond)

theorem mono {lower : Nat} (h : Laid floor before lines after) (hlower : lower ≤ floor) :
    Laid lower before lines after := by
  induction h with
  | nil => exact .nil _
  | cons hline hfloor _ ih => exact .cons hline (Nat.le_trans hlower hfloor) ih

theorem split {front back : List (List Char)} (h : Laid floor before (front ++ back) after) :
    ∃ between, Laid floor before front between ∧ Laid floor between back after := by
  induction front generalizing before with
  | nil => exact ⟨before, .nil before, h⟩
  | cons line rest ih =>
    cases h with
    | cons hline hfloor hrest =>
      obtain ⟨between, hfront, hback⟩ := ih hrest
      exact ⟨between, .cons hline hfloor hfront, hback⟩

theorem openAfter_eq_some (h : Laid floor before lines after) :
    openAfter before lines.flatten = some after := by
  induction h with
  | nil => rfl
  | cons hline _ _ ih =>
    rw [List.flatten_cons, openAfter_append, hline.openAfter_eq_some]
    exact ih

/-- One of the lines, with the braces that are open before and after it. -/
theorem line_at {front rest : List (List Char)} {line : List Char}
    (h : Laid floor before (front ++ line :: rest) after) :
    ∃ level between, Fits level line between ∧ floor ≤ between ∧ Laid floor between rest after ∧
      (level : Int) = before + openBraces front.flatten ∧
      (between : Int) = before + openBraces (front ++ [line]).flatten := by
  obtain ⟨level, hfront, hback⟩ := h.split
  cases hback with
  | @cons _ between _ _ _ hline hfloor hrest =>
    exact ⟨level, between, hline, hfloor, hrest, openAfter_eq hfront.openAfter_eq_some,
      openAfter_eq (hfront.append (.single hline hfloor)).openAfter_eq_some⟩

theorem no_break (h : Laid floor before lines after) : ∀ line ∈ lines, '\n' ∉ line := by
  induction h with
  | nil => exact List.forall_mem_nil _
  | cons hline _ _ ih => exact List.forall_mem_cons.mpr ⟨hline.no_break, ih⟩

/-- Where at the end fewer than `level` braces are open, the first line below that level begins with
a closing brace and stands one level out of those before it. -/
theorem closed {level : Nat} (h : Laid floor before lines after) (hbefore : level ≤ before)
    (hafter : after < level) :
    ∃ inside closing back, lines = inside ++ closing :: back ∧
      (∀ line ∈ inside, line ≠ [] → 2 * level ≤ indentation line) ∧
      Closes closing ∧ indentation closing + 2 = 2 * level := by
  induction h with
  | nil => omega
  | @cons before between after line rest hline hfloor hrest ih =>
    -- The line is inside the block, or it is the one that ends it.
    have hinside : level ≤ between → (line ≠ [] → 2 * level ≤ indentation line) →
        ∃ inside closing back, line :: rest = inside ++ closing :: back ∧
          (∀ line ∈ inside, line ≠ [] → 2 * level ≤ indentation line) ∧
          Closes closing ∧ indentation closing + 2 = 2 * level := by
      intro hbetween hindented
      obtain ⟨inside, closing, back, rfl, hall, hcloses, hlevel⟩ := ih hbetween hafter
      exact ⟨line :: inside, closing, back, rfl, List.forall_mem_cons.mpr ⟨hindented, hall⟩,
        hcloses, hlevel⟩
    cases hline with
    | empty => exact hinside hbefore fun hne => absurd rfl hne
    | plain hspace hclose hbreak hopen hmore =>
      refine hinside (by omega) fun _ => ?_
      rw [indentation_spaces _ hspace]
      omega
    | @closing outer more tail hbreak hopen hmore =>
      by_cases hlevel : level ≤ outer
      · refine hinside (by omega) fun _ => ?_
        rw [indentation_spaces _ (by decide)]
        omega
      · refine ⟨[], _, rest, rfl, List.forall_mem_nil _,
          (closes_spaces_iff _ (by decide) _).mpr rfl, ?_⟩
        rw [indentation_spaces _ (by decide)]
        omega

end Laid

/-- On one line, so many braces are open before and after the text. -/
def Counts (before : Nat) (text : String) (after : Nat) : Prop :=
  openAfter before text.toList = some after ∧ '\n' ∉ text.toList

/-- The text does not begin with a space or a closing brace. -/
def Starts (text : String) : Prop :=
  text.toList.head?.any (fun c => c != ' ' && c != '\x7d') = true

theorem counts_fixed {before after : Nat} (text : String)
    (hopen : openAfter before text.toList = some after)
    (hbreak : text.toList.contains '\n' = false) : Counts before text after := by
  refine ⟨hopen, fun hmem => ?_⟩
  rw [List.contains_iff_mem.mpr hmem] at hbreak
  cases hbreak

theorem Counts.append {before between after : Nat} {first second : String}
    (hfirst : Counts before first between) (hsecond : Counts between second after) :
    Counts before (first ++ second) after := by
  unfold Counts
  rw [String.toList_append, openAfter_append, hfirst.1, List.mem_append]
  exact ⟨hsecond.1, not_or.mpr ⟨hfirst.2, hsecond.2⟩⟩

theorem counts_bare {text : String} (h : Bare text) (level : Nat) : Counts level text level :=
  ⟨openAfter_bare h level, fun hmem => (h '\n' hmem).2.2 rfl⟩

theorem starts_fixed (text : String)
    (h : text.toList.head?.any (fun c => c != ' ' && c != '\x7d') = true) : Starts text := h

theorem Starts.exists_cons {text : String} (h : Starts text) :
    ∃ c rest, text.toList = c :: rest ∧ c ≠ ' ' ∧ c ≠ '\x7d' := by
  unfold Starts at h
  cases htext : text.toList with
  | nil =>
    rw [htext] at h
    cases h
  | cons c rest =>
    rw [htext, List.head?_cons, Option.any_some, Bool.and_eq_true, bne_iff_ne, bne_iff_ne] at h
    exact ⟨c, rest, rfl, h⟩

theorem Starts.append {front : String} (h : Starts front) (back : String) :
    Starts (front ++ back) := by
  obtain ⟨c, rest, hfront, -⟩ := h.exists_cons
  unfold Starts at h ⊢
  rw [String.toList_append, hfront, List.cons_append]
  rwa [hfront] at h

theorem placed_toList (depth : Nat) {line : String} (h : line.toList ≠ []) :
    (Lines.placed depth line).toList = List.replicate (2 * depth) ' ' ++ line.toList := by
  have hne : line ≠ "" := fun he => h (he ▸ rfl)
  rw [Lines.placed, if_neg hne, String.toList_append, String.toList_ofList]

theorem fits_placed {text : String} {more : Nat} (hstarts : Starts text) (hcounts : Counts 0 text more)
    (hmore : more ≤ 1) (depth : Nat) :
    Fits depth (Lines.placed depth text).toList (depth + more) := by
  obtain ⟨c, rest, htext, hspace, hclose⟩ := hstarts.exists_cons
  unfold Counts at hcounts
  rw [placed_toList depth (htext ▸ List.cons_ne_nil c rest), htext]
  rw [htext] at hcounts
  exact .plain hspace hclose hcounts.2 hcounts.1 hmore

theorem fits_placed_closing {text : String} {more : Nat} (hcounts : Counts 0 text more)
    (hmore : more ≤ 1) (depth : Nat) :
    Fits (depth + 1) (Lines.placed depth ("\x7d" ++ text)).toList (depth + more) := by
  have htext : ("\x7d" ++ text).toList = '\x7d' :: text.toList := by
    rw [String.toList_append]
    rfl
  rw [placed_toList depth (htext ▸ List.cons_ne_nil _ _), htext]
  exact .closing hcounts.2 hcounts.1 hmore

/-- A line without braces. -/
theorem fits_words {text : String} (hstarts : Starts text) (hbare : Bare text) (depth : Nat) :
    Fits depth (Lines.placed depth text).toList depth :=
  fits_placed hstarts (counts_bare hbare 0) (Nat.zero_le 1) depth

/-- A line that ends a block. -/
theorem fits_end {text : String} (hbare : Bare text) (depth : Nat) :
    Fits (depth + 1) (Lines.placed depth ("\x7d" ++ text)).toList depth :=
  fits_placed_closing (counts_bare hbare 0) (Nat.zero_le 1) depth

end Bracketing

end Backtrack
