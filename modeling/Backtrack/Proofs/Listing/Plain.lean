import Backtrack.Proofs.Assignment.Paths
import Backtrack.Proofs.Ownership.Runs

/-!
# Plain code

Code without what only a reader of its text would see: its remarks and blank lines, the grouping of
its parts, and whether a loop that runs once is that of a sequence or that of a choice. Plain code
runs as the code did, has the same paths and treats owned values in the same way.
-/

namespace Backtrack

set_option autoImplicit false

/-- Loops that run once are all the same. -/
def Loop.plain : Loop → Loop
  | .sequence | .choice => .sequence
  | .repetition => .repetition

namespace Code

/-- What comes after other code, made plain. -/
def onto (done : Code) : Code → Code
  | .skip | .remark _ | .blank => done
  | .seq first second => onto (onto done first) second
  | .loop purpose body => done ++ .loop purpose.plain (onto .skip body)
  | .instr instruction => done ++ .instr instruction
  | .guard condition instruction => done ++ .guard condition instruction
  | .branch condition yes no => done ++ .branch condition yes no

def plain (code : Code) : Code := onto .skip code

/-- Code is the same if its parts are, however they are grouped, and remarks are nothing. -/
structure Grouping (Same : Code → Code → Prop) : Prop where
  refl (a : Code) : Same a a
  trans {a b c : Code} (first : Same a b) (second : Same b c) : Same a c
  append {a a' b b' : Code} (first : Same a a') (second : Same b b') : Same (a ++ b) (a' ++ b')
  assoc (a b c : Code) : Same ((a ++ b) ++ c) (a ++ (b ++ c))
  skip_append (a : Code) : Same (skip ++ a) a
  append_skip (a : Code) : Same a (a ++ skip)
  remark (note : Remark) : Same skip (remark note)
  blank : Same skip blank
  loop {a a' : Code} (purpose : Loop) (body : Same a a') :
    Same (loop purpose.plain a) (loop purpose a')

namespace Grouping

variable {Same : Code → Code → Prop}

theorem onto (h : Grouping Same) (done code : Code) : Same (done.onto code) (done ++ code) := by
  induction code generalizing done with
  | skip => exact h.append_skip done
  | remark note => exact h.trans (h.append_skip done) (h.append (h.refl done) (h.remark note))
  | blank => exact h.trans (h.append_skip done) (h.append (h.refl done) h.blank)
  | seq first second ihfirst ihsecond =>
    have hfirst : Same (done.onto first ++ second) ((done ++ first) ++ second) :=
      h.append (ihfirst done) (h.refl second)
    exact h.trans (ihsecond _) (h.trans hfirst (h.assoc done first second))
  | loop purpose body ih =>
    have hbody : Same (skip.onto body) body := h.trans (ih skip) (h.skip_append body)
    exact h.append (h.refl done) (h.loop purpose hbody)
  | instr instruction => exact h.refl _
  | guard condition instruction => exact h.refl _
  | branch condition yes no => exact h.refl _

theorem plain (h : Grouping Same) (code : Code) : Same code.plain code :=
  h.trans (h.onto skip code) (h.skip_append code)

end Grouping

section Run

variable {Pos : Type} (tables : Session) (rt : Runtime Pos) (n : Nat)

theorem grouping_run : Grouping fun a b => a.run tables rt n = b.run tables rt n where
  refl a := rfl
  trans first second := first.trans second
  append first second := by
    funext s
    simp only [run_append, first, second]
  assoc a b c := by
    funext s
    simp only [run_append]
    rcases a.run tables rt n s with ⟨_ | _ | _, s⟩
    · rfl
    · rfl
    · rfl
  skip_append a := rfl
  append_skip a := by
    funext s
    exact (andThen_done _).symm
  remark note := rfl
  blank := rfl
  loop purpose body := by
    funext s
    cases purpose with
    | sequence => exact congrArg (fun run => landed (run s)) body
    | choice => exact congrArg (fun run => landed (run s)) body
    | repetition => exact congrArg (fun run => rounds run n s) body

/-- Plain code runs as the code did. -/
theorem run_plain (code : Code) : code.plain.run tables rt n = code.run tables rt n :=
  (grouping_run tables rt n).plain code

end Run

theorem grouping_alike : Grouping Alike where
  refl a := ⟨fun _ _ _ => Iff.rfl, fun _ _ => Iff.rfl⟩
  trans first second := first.trans second
  append first second := by
    constructor
    · intro s ending s'
      simp only [path_append, first.path, second.path]
    · intro s l
      simp only [strays_append, first.path, first.strays, second.strays]
  assoc := alike_append_assoc
  skip_append a := by
    constructor
    · intro s ending s'
      simp
      grind
    · intro s l
      simp
  append_skip a := by
    constructor
    · intro s ending s'
      simp
      grind
    · intro s l
      simp
  remark note := ⟨fun _ _ _ => Iff.rfl, fun _ _ => Iff.rfl⟩
  blank := ⟨fun _ _ _ => Iff.rfl, fun _ _ => Iff.rfl⟩
  loop {a a'} purpose body := by
    have hpath : a.Path = a'.Path := by
      funext s ending s'
      exact propext (body.path s ending s')
    constructor
    · intro s ending s'
      cases purpose <;> simp only [Loop.plain, Path, hpath]
    · intro s l
      cases purpose <;> simp only [Loop.plain, Strays, hpath, body.strays]

/-- Plain code has the paths of the code and strays where it did. -/
theorem alike_plain (code : Code) : Alike code.plain code := grouping_alike.plain code

theorem grouping_runs : Grouping fun a b => a.Runs = b.Runs where
  refl a := rfl
  trans first second := first.trans second
  append {a a' b b'} first second := by
    change (seq a b).Runs = (seq a' b').Runs
    funext s ending s'
    simp only [Runs, first, second]
  assoc a b c := by
    change (seq (seq a b) c).Runs = (seq a (seq b c)).Runs
    funext s ending s'
    simp only [Runs]
    grind
  skip_append a := by
    change (seq skip a).Runs = a.Runs
    funext s ending s'
    simp only [Runs]
    grind
  append_skip a := by
    change a.Runs = (seq a skip).Runs
    funext s ending s'
    simp only [Runs]
    grind
  remark note := rfl
  blank := rfl
  loop {a a'} purpose body := by
    funext s ending s'
    cases purpose <;> simp only [Loop.plain, Runs, body]

/-- Plain code treats owned values as the code did. -/
theorem runs_plain (code : Code) : code.plain.Runs = code.Runs := grouping_runs.plain code

end Code

end Backtrack
