import Backtrack.Proofs.Generation.Traversal
import Backtrack.Proofs.Layout.SplitShared
import Backtrack.Proofs.Maps.Insertion

/-!
# The order of namespaces

Namespaces come in the order in which they are first met: in the initializers, and then in the user
code of the rules, where an action comes after all that is inside it. Their initializers are those
that the grammar gives last.
-/

namespace Backtrack

set_option autoImplicit false

open Section (banner)

namespace Grammar

/-- All user code of a grammar in the order in which it is met. -/
def userCode (grammar : Grammar) : List UserCode :=
  grammar.initializers ++ grammar.rules.flatMap fun rule => rule.expression.userCode

/-- The initializer that a grammar gives last for a namespace. -/
def initializer? (grammar : Grammar) (space : String) : Option String :=
  ((grammar.initializers.filter (·.space = space)).getLast?).map UserCode.body

end Grammar

theorem OrderedMap.get?_eq_none {α β : Type} [DecidableEq α] {map : OrderedMap α β} {key : α}
    (h : key ∉ map.keys) : map.get? key = none := by
  apply List.lookup_eq_none_iff.mpr
  intro entry hentry
  apply bne_iff_ne.mpr
  rintro rfl
  exact h (List.mem_map_of_mem hentry)

namespace UserTables

theorem keys_touchAll {spaces : OrderedMap String (Option String)} {seen : List String}
    (h : spaces.keys = seen.eraseDups) (met : List UserCode) :
    (touchAll spaces met).keys = (seen ++ met.map UserCode.space).eraseDups :=
  OrderedMap.keys_foldl (fun spaces code => OrderedMap.keys_insertIfNew spaces code.space none) h met

/-- A namespace that is made known gets no initializer. -/
theorem join_get?_insertIfNew (spaces : OrderedMap String (Option String)) (met space : String) :
    ((spaces.insertIfNew met none).get? space).join = (spaces.get? space).join := by
  unfold OrderedMap.insertIfNew
  split
  · rfl
  · rename_i hnew
    rw [OrderedMap.get?_insert]
    split
    · rename_i hspace
      rw [hspace, OrderedMap.get?_eq_none hnew]
      rfl
    · rfl

theorem join_get?_touchAll (spaces : OrderedMap String (Option String)) (met : List UserCode)
    (space : String) : ((touchAll spaces met).get? space).join = (spaces.get? space).join := by
  induction met generalizing spaces with
  | nil => rfl
  | cons first rest ih => exact (ih _).trans (join_get?_insertIfNew spaces first.space space)

end UserTables

theorem Session.spaces_ofInitializers (initializers : List UserCode) :
    (ofInitializers initializers).user.spaces =
      OrderedMap.insertAll {} (initializers.map fun code => (code.space, some code.body)) := by
  have h : ∀ session : Session,
      (initializers.foldl (fun session code => session.addInitializer code.space code.body)
        session).user.spaces =
      session.user.spaces.insertAll (initializers.map fun code => (code.space, some code.body)) := by
    induction initializers with
    | nil => exact fun _ => rfl
    | cons first rest ih => exact fun session => ih (session.addInitializer first.space first.body)
  exact h {}

theorem lookup_map_space (initializers : List UserCode) (space : String) :
    (initializers.map fun code => (code.space, some code.body)).lookup space =
      (initializers.find? (·.space = space)).map fun code => some code.body := by
  induction initializers with
  | nil => rfl
  | cons first rest ih =>
    rw [List.map_cons, List.lookup_cons, List.find?_cons, ih]
    by_cases h : first.space = space
    · rw [beq_iff_eq.mpr h.symm, decide_eq_true h]
      rfl
    · rw [beq_false_of_ne fun he => h he.symm, decide_eq_false h]

theorem Grammar.initializer?_eq (grammar : Grammar) (space : String) :
    ((Session.ofInitializers grammar.initializers).user.spaces.get? space).join =
      grammar.initializer? space := by
  rw [Session.spaces_ofInitializers, OrderedMap.get?_insertAll, ← List.map_reverse,
    lookup_map_space, initializer?, List.getLast?_filter]
  cases grammar.initializers.reverse.find? (·.space = space) with
  | none => rfl
  | some code => rfl

/-- The namespaces of compiled user code, in order, and the initializer of each. -/
theorem Grammar.spaces_of_compile {policy : Policy} {grammar : Grammar} {compiled : Compiled}
    {diagnostics : List Diagnostic} (h : grammar.compile policy = (.ok compiled, diagnostics)) :
    compiled.user.spaces.keys = (grammar.userCode.map UserCode.space).eraseDups ∧
      compiled.user.initializer? = grammar.initializer? := by
  obtain ⟨functions, session, hrules, rfl⟩ := compile_ok h
  have hmet := (Session.records_compileRules hrules).spaces
  have hgiven : (Session.ofInitializers grammar.initializers).user.spaces.keys =
      (grammar.initializers.map UserCode.space).eraseDups := by
    have hempty : (({} : OrderedMap String (Option String))).keys = [].eraseDups := rfl
    rw [Session.spaces_ofInitializers, OrderedMap.keys_insertAll hempty, List.map_map]
    rfl
  refine ⟨?_, ?_⟩
  · change session.user.spaces.keys = _
    rw [hmet, UserTables.keys_touchAll hgiven, ← List.map_append]
    rfl
  · funext space
    change (session.user.spaces.get? space).join = _
    rw [hmet, UserTables.join_get?_touchAll, grammar.initializer?_eq]

theorem Compiled.spaces_output (compiled : Compiled) (runtimeHeader namespaceHeader : String) :
    (compiled.output ⟨true, runtimeHeader, namespaceHeader⟩).spaces = compiled.user.spaces.keys := by
  rw [output_split, Output.spaces, List.filterMap_append, List.filterMap_map]
  have hspace : SourceFile.space ∘ compiled.spaceFile ⟨true, runtimeHeader, namespaceHeader⟩ =
      some := rfl
  rw [hspace, List.filterMap_some]
  exact List.append_nil _

/-- The namespaces of a split output are those of the user code, in the order in which it is met.
The file of each begins with the initializer that the grammar gives last for it, if any; the same
initializers, in the same order, are the first section of the shared parser. -/
theorem spaces_in_order_met {runtimeHeader namespaceHeader : String} {policy : Policy}
    {grammar : Grammar} {output : Output} {diagnostics : List Diagnostic}
    (h : grammar.generate ⟨true, runtimeHeader, namespaceHeader⟩ policy =
      (.ok output, diagnostics)) :
    output.spaces = ((grammar.initializers ++
      grammar.rules.flatMap fun rule => rule.expression.nodes.filterMap Expr.userCode?).map
        UserCode.space).eraseDups ∧
    output.spaces.Nodup ∧
    ∃ (compiled : Compiled) (parser : String) (rest : List String),
      grammar.compile policy = (.ok compiled, diagnostics) ∧
      output.files = (output.spaces.map fun space => ⟨some space, "\n".intercalate (
          ["/* Namespace: " ++ space ++ " */", "#include \"" ++ namespaceHeader ++ "\"", ""] ++
          (grammar.initializer? space).toList ++ compiled.user.declarations (some space) ++ [""] ++
          compiled.user.definitions (some space))⟩) ++ [⟨none, parser⟩] ∧
      grammar.generate ⟨false, runtimeHeader, namespaceHeader⟩ policy =
        (.ok ⟨[⟨none, "\n".intercalate (
          ["/*Parser*/", "#include \"" ++ runtimeHeader ++ "\"", "", banner "INITIALIZERS"] ++
          output.spaces.filterMap grammar.initializer? ++
          banner "PREDICATES FORWARD DECLARATIONS" :: rest)⟩]⟩, diagnostics) := by
  obtain ⟨compiled, hcompile, rfl⟩ := Grammar.generate_ok h
  obtain ⟨hkeys, hinitializer⟩ := Grammar.spaces_of_compile hcompile
  have hnodup : compiled.user.spaces.keys.Nodup := hkeys ▸ nodup_eraseDups _
  rw [compiled.spaces_output]
  refine ⟨hkeys, hnodup, compiled, "\n".intercalate (Compiled.opening runtimeHeader ++
    compiled.between ++ compiled.closing), compiled.between.tail ++
    ((banner "PREDICATES" :: compiled.user.predicates.definitions none) ++
      ((banner "ACTIONS" :: compiled.user.actions.definitions none) ++ compiled.closing)),
    hcompile, ?_, ?_⟩
  · rw [compiled.output_split, ← hinitializer, funext (compiled.spaceFile_eq _)]
  · have hbetween : compiled.between =
        banner "PREDICATES FORWARD DECLARATIONS" :: compiled.between.tail := rfl
    rw [Grammar.generate_of_compile hcompile, compiled.output_shared,
      UserTables.initializers_eq hnodup, hinitializer, hbetween]
    simp only [Compiled.opening, List.append_assoc, List.cons_append, List.nil_append,
      List.tail_cons]

/-- A namespace has two initializers, with that of another between them. An action is around a
sequence that has a predicate and an action inside. -/
theorem spaces_in_order_met_of_nested :
    let grammar : Grammar := ⟨[⟨"b", "int old;"⟩, ⟨"a", "int one;"⟩, ⟨"b", "int new;"⟩],
      [⟨"R", .action none ⟨"d", "d();"⟩ (.sequence none [.predicate none false ⟨"c", "c();"⟩,
        .action none ⟨"e", "e();"⟩ (.any none)]), none⟩]⟩
    ∃ output, grammar.generate ⟨true, "peg-internal.h", "peg.h"⟩ .strict = (.ok output, []) ∧
      output.spaces = ["b", "a", "c", "e", "d"] ∧
      output.spaces.filterMap grammar.initializer? = ["int new;", "int one;"] := by
  intro grammar
  have hok : (grammar.generate ⟨true, "peg-internal.h", "peg.h"⟩ .strict).1.isOk = true := by
    decide +kernel
  have hquiet : (grammar.generate ⟨true, "peg-internal.h", "peg.h"⟩ .strict).2 = [] := by
    decide +kernel
  cases hgenerate : grammar.generate ⟨true, "peg-internal.h", "peg.h"⟩ .strict with
  | mk result diagnostics =>
    rw [hgenerate] at hok hquiet
    cases hquiet
    cases result with
    | error => cases hok
    | ok output =>
      refine ⟨output, rfl, ?_⟩
      rw [(spaces_in_order_met hgenerate).1]
      exact ⟨by decide +kernel, by decide +kernel⟩

end Backtrack
