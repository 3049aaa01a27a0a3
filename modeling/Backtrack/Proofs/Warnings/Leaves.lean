import Backtrack.Proofs.Generation.Traversal
import Backtrack.Proofs.Warnings.Agreement

/-!
# The warnings of a grammar

Warnings are about literals and classes, and each of these is warned about for itself, whether its
constant is new or shared. So the warnings of a grammar can be read off its expressions.
-/

namespace Backtrack

set_option autoImplicit false

/-- Collected warnings keep no rule from being compiled. -/
theorem Session.compileRules_collecting (session : Session) (rules : List Rule) :
    ∃ functions after, session.compileRules .collecting rules = (.ok functions, after) := by
  have hagree := session.compileRules_agree rules
  generalize session.compileRules .strict rules = strict at hagree
  generalize session.compileRules .collecting rules = collecting at hagree
  cases hagree with
  | quiet => exact ⟨_, _, rfl⟩
  | warned => exact ⟨_, _, rfl⟩

/-- The collected warnings are those about the nodes of the rules, from left to right and rule after
rule. A literal or a class is warned about where it ignores case, and then where it has a character
that is no byte; no other node is. -/
theorem warnings_are_those_of_leaves (config : Config) (grammar : Grammar) :
    ∃ output, grammar.generate config .collecting =
      (.ok output, grammar.rules.flatMap fun rule =>
        rule.expression.nodes.flatMap (Expr.warnings rule.region)) := by
  obtain ⟨functions, after, hrules⟩ :=
    (Session.ofInitializers grammar.initializers).compileRules_collecting grammar.rules
  have hrecords := Session.records_compileRules hrules
  have hraised : after.diagnostics = grammar.rules.flatMap fun rule =>
      rule.expression.allWarnings rule.region := by
    rw [hrecords.diagnostics, Session.diagnostics_ofInitializers, List.nil_append]
  unfold Grammar.generate Grammar.compile
  rw [hrules]
  exact ⟨_, congrArg (Prod.mk _) hraised⟩

/-- Inside a name and a sequence, a literal that ignores case comes twice, and a class between them
has a wide bound. -/
example : ((⟨[], [⟨"R", .named none "n" (.sequence none [.literal none "a" true,
      .charClass none ⟨[.range 'a' '\u0100'], false, true, "[a-\u0100]i"⟩,
      .literal none "a" true]), none⟩]⟩ : Grammar).generate {} .collecting).2 =
    [⟨.caseInsensitive, none, "a"⟩, ⟨.caseInsensitive, none, "[a-\u0100]i"⟩,
      ⟨.nonByteCharacter, none, "[a-\u0100]i"⟩, ⟨.caseInsensitive, none, "a"⟩] := by
  decide +kernel

end Backtrack
