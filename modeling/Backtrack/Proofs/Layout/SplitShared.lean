import Backtrack.Proofs.Layout.Namespaces

/-!
# The two layouts carry one program

A shared layout has everything in the parser. A split layout takes the sections with user code out
of it, and puts each function and each initializer into the file of its namespace.
-/

namespace Backtrack

set_option autoImplicit false

namespace UserTables

def functions (user : UserTables) : List UserFunction :=
  user.predicates.functions.toList ++ user.actions.functions.toList

/-- The declarations of predicates and then of actions, all or those of one namespace. -/
def declarations (user : UserTables) (space? : Option String) : List String :=
  user.predicates.declarations space? ++ user.actions.declarations space?

def definitions (user : UserTables) (space? : Option String) : List String :=
  user.predicates.definitions space? ++ user.actions.definitions space?

theorem initializers_eq {user : UserTables} (hn : user.spaces.keys.Nodup) :
    user.initializers = user.spaces.keys.filterMap user.initializer? := by
  have hjoin : user.initializer? = Option.join ∘ user.spaces.get? := rfl
  have hvalues : user.spaces.keys.map user.spaces.get? = user.spaces.values.map some :=
    OrderedMap.map_get?_keys hn
  rw [hjoin, ← List.filterMap_map, hvalues, List.filterMap_map]
  rfl

/-- The definitions of all namespaces are all definitions. -/
theorem perm_definitions {user : UserTables} (hn : user.spaces.keys.Nodup)
    (hk : ∀ function ∈ user.functions, function.space ∈ user.spaces.keys) :
    (user.spaces.keys.flatMap fun space => user.definitions (some space)).Perm
      (user.definitions none) := by
  have htable : ∀ table : FunctionTable,
      (∀ function ∈ table.functions.toList, function.space ∈ user.spaces.keys) →
      (user.spaces.keys.flatMap fun space => table.definitions (some space)).Perm
        (table.definitions none) := by
    intro table htable
    simp only [table.definitions_eq, table.select_some]
    rw [← List.map_flatMap]
    apply List.Perm.map
    apply perm_grouped (fun entry : UserFunction × Nat => entry.1.space) hn
    intro entry hentry
    rw [table.select_none] at hentry
    exact htable entry.1 (List.fst_mem_of_mem_zipIdx hentry)
  have hp := htable user.predicates fun f hf => hk f (List.mem_append_left _ hf)
  have ha := htable user.actions fun f hf => hk f (List.mem_append_right _ hf)
  exact (List.flatMap_append_perm _ _ _).symm.trans (hp.append ha)

theorem mem_definitions {user : UserTables} {space? : Option String} {text : String} :
    text ∈ user.definitions space? ↔
      ∃ table ∈ [user.predicates, user.actions], ∃ entry ∈ table.select space?,
        table.definition entry = text := by
  simp only [definitions, FunctionTable.definitions_eq, List.mem_append, List.mem_map,
    List.mem_cons, List.not_mem_nil, or_false, exists_eq_or_imp, exists_eq_left]

end UserTables

namespace Session.Headed

variable {session : Session} (h : session.Headed)
include h

/-- A predicate and an action differ in the first letter of their definitions. -/
theorem definition_ne (predicate action : UserFunction × Nat) :
    session.user.predicates.definition predicate ≠ session.user.actions.definition action := by
  intro he
  obtain ⟨left, hl⟩ := session.user.predicates.definition_toList predicate
  obtain ⟨right, hr⟩ := session.user.actions.definition_toList action
  have hp : session.user.predicates.returns ++ " " ++ session.user.predicates.stem = "int is" := by
    rw [h.predicates]
    rfl
  have ha : session.user.actions.returns ++ " " ++ session.user.actions.stem = "void f" := by
    rw [h.actions]
    rfl
  rw [he, hr, hp, ha] at hl
  cases hl

theorem nodup_definitions : (session.user.definitions none).Nodup := by
  apply List.Nodup.append
  · exact session.user.predicates.nodup_definitions
  · exact session.user.actions.nodup_definitions
  · intro text hp ha
    obtain ⟨predicate, -, rfl⟩ := List.mem_map.mp hp
    obtain ⟨action, -, he⟩ := List.mem_map.mp ha
    exact h.definition_ne predicate action he.symm

theorem definition_inj {table other : FunctionTable}
    (ht : table ∈ [session.user.predicates, session.user.actions])
    (ho : other ∈ [session.user.predicates, session.user.actions]) {entry found : UserFunction × Nat}
    (hentry : entry ∈ table.select none) (hfound : found ∈ other.select none)
    (he : table.definition entry = other.definition found) : entry = found := by
  rcases List.mem_pair.mp ht with rfl | rfl
  · rcases List.mem_pair.mp ho with rfl | rfl
    · exact FunctionTable.definition_inj _ hentry hfound he
    · exact absurd he (h.definition_ne entry found)
  · rcases List.mem_pair.mp ho with rfl | rfl
    · exact absurd he.symm (h.definition_ne found entry)
    · exact FunctionTable.definition_inj _ hentry hfound he

/-- The definition of a function is in its own namespace and in no other. -/
theorem definition_mem_iff {table : FunctionTable}
    (ht : table ∈ [session.user.predicates, session.user.actions]) {entry : UserFunction × Nat}
    (hentry : entry ∈ table.select none) (space : String) :
    table.definition entry ∈ session.user.definitions (some space) ↔ space = entry.1.space := by
  rw [UserTables.mem_definitions]
  constructor
  · rintro ⟨other, ho, found, hfound, he⟩
    obtain ⟨hin, rfl⟩ := other.mem_select_some.mp hfound
    rw [h.definition_inj ho ht hin hentry he]
  · rintro rfl
    exact ⟨table, ht, entry, table.mem_select_some.mpr ⟨hentry, rfl⟩, rfl⟩

end Session.Headed

open Section (banner)

namespace Compiled

variable (compiled : Compiled) (runtimeHeader namespaceHeader : String)

def opening : List String := ["/*Parser*/", "#include \"" ++ runtimeHeader ++ "\"", ""]

/-- The sections between the initializers and the predicates. -/
def between : List String :=
  ((compiled.sections.drop 1).take 6).flatMap Section.text

/-- The rules and what follows them. -/
def closing : List String :=
  (compiled.sections.drop 9).flatMap Section.text ++ [banner ""] ++
    (EntryPoint.parse compiled.ruleNames).toList ++ EntryPoint.wrappers

theorem output_shared :
    compiled.output ⟨false, runtimeHeader, namespaceHeader⟩ =
      ⟨[⟨none, "\n".intercalate (opening runtimeHeader ++
        (banner "INITIALIZERS" :: compiled.user.initializers) ++ compiled.between ++
        (banner "PREDICATES" :: compiled.user.predicates.definitions none) ++
        (banner "ACTIONS" :: compiled.user.actions.definitions none) ++ compiled.closing)⟩]⟩ := by
  have hlines : compiled.parserLines ⟨false, runtimeHeader, namespaceHeader⟩ =
      opening runtimeHeader ++
        (banner "INITIALIZERS" :: compiled.user.initializers) ++ compiled.between ++
        (banner "PREDICATES" :: compiled.user.predicates.definitions none) ++
        (banner "ACTIONS" :: compiled.user.actions.definitions none) ++ compiled.closing := by
    simp [parserLines, sections, opening, between, closing, Section.text]
  simp only [output, parserFile, hlines]
  rfl

theorem output_split :
    compiled.output ⟨true, runtimeHeader, namespaceHeader⟩ =
      ⟨compiled.user.spaces.keys.map (compiled.spaceFile ⟨true, runtimeHeader, namespaceHeader⟩) ++
        [⟨none, "\n".intercalate (opening runtimeHeader ++ compiled.between ++
          compiled.closing)⟩]⟩ := by
  have hlines : compiled.parserLines ⟨true, runtimeHeader, namespaceHeader⟩ =
      opening runtimeHeader ++ compiled.between ++ compiled.closing := by
    simp [parserLines, sections, opening, between, closing, Section.text]
  simp only [output, parserFile, hlines]
  rfl

theorem spaceFile_eq (config : Config) (space : String) :
    compiled.spaceFile config space = ⟨some space, "\n".intercalate (
      ["/* Namespace: " ++ space ++ " */", "#include \"" ++ config.namespaceHeader ++ "\"", ""] ++
      (compiled.user.initializer? space).toList ++ compiled.user.declarations (some space) ++
      [""] ++ compiled.user.definitions (some space))⟩ := by
  rw [spaceFile, UserTables.fileText]
  simp only [UserTables.fileLines, UserTables.declarations, UserTables.definitions,
    List.append_assoc]

theorem declaration_mem_between {table : FunctionTable}
    (ht : table ∈ [compiled.user.predicates, compiled.user.actions]) {entry : UserFunction × Nat}
    (he : entry ∈ table.select none) : table.declaration entry ∈ compiled.between := by
  have hdeclared : table.declaration entry ∈ table.declarations none := List.mem_map_of_mem he
  have hsection : ∃ part ∈ (compiled.sections.drop 1).take 6, part.lines =
      table.declarations none := by
    rcases List.mem_pair.mp ht with rfl | rfl
    · exact ⟨_, List.mem_cons_self, rfl⟩
    · exact ⟨_, List.mem_cons_of_mem _ List.mem_cons_self, rfl⟩
  obtain ⟨part, hpart, hlines⟩ := hsection
  apply List.mem_flatMap.mpr
  exact ⟨part, hpart, List.mem_cons_of_mem _ (hlines ▸ hdeclared)⟩

end Compiled

/-- A grammar that is generated in one layout is generated in both, with the same warnings. The
shared parser less its sections with user code is the split parser, and what those sections hold is
in the files of the namespaces, each item once and in its own. -/
theorem layouts_carry_one_program {split : Bool} {runtimeHeader namespaceHeader : String}
    {policy : Policy} {grammar : Grammar} {output : Output} {diagnostics : List Diagnostic}
    (h : grammar.generate ⟨split, runtimeHeader, namespaceHeader⟩ policy =
      (.ok output, diagnostics)) :
    ∃ (compiled : Compiled) (front middle back : List String),
      grammar.compile policy = (.ok compiled, diagnostics) ∧
      let user := compiled.user
      let spaces := user.spaces.keys
      grammar.generate ⟨false, runtimeHeader, namespaceHeader⟩ policy =
        (.ok ⟨[⟨none, "\n".intercalate (front ++
          (banner "INITIALIZERS" :: user.initializers) ++ middle ++
          (banner "PREDICATES" :: user.predicates.definitions none) ++
          (banner "ACTIONS" :: user.actions.definitions none) ++ back)⟩]⟩, diagnostics) ∧
      grammar.generate ⟨true, runtimeHeader, namespaceHeader⟩ policy =
        (.ok ⟨(spaces.map fun space => ⟨some space, "\n".intercalate (
            ["/* Namespace: " ++ space ++ " */", "#include \"" ++ namespaceHeader ++ "\"", ""] ++
            (user.initializer? space).toList ++ user.declarations (some space) ++ [""] ++
            user.definitions (some space))⟩) ++
          [⟨none, "\n".intercalate (front ++ middle ++ back)⟩]⟩, diagnostics) ∧
      spaces.Nodup ∧
      (∀ space, space ∈ spaces ↔ space ∈ grammar.initializers.map UserCode.space ∨
        ∃ function ∈ user.functions, function.space = space) ∧
      user.initializers = spaces.filterMap user.initializer? ∧
      (spaces.flatMap fun space => user.definitions (some space)).Perm (user.definitions none) ∧
      (user.definitions none).Nodup ∧
      ∀ table ∈ [user.predicates, user.actions], ∀ entry ∈ table.select none,
        entry.1.space ∈ spaces ∧
        (∀ space, table.definition entry ∈ user.definitions (some space) ↔
          space = entry.1.space) ∧
        table.declaration entry ∈ user.declarations (some entry.1.space) ∧
        table.declaration entry ∈ middle := by
  obtain ⟨compiled, hcompile, -⟩ := Grammar.generate_ok h
  obtain ⟨functions, session, hrules, hcompiled⟩ := Grammar.compile_ok hcompile
  have hgrows := (Session.ofInitializers grammar.initializers).compileRules_grows policy
    grammar.rules
  rw [hrules] at hgrows
  have hknown : session.Registered (grammar.initializers.map UserCode.space) :=
    hgrows.invariant (fun _ _ hs => hs.registered)
      (Session.registered_ofInitializers grammar.initializers)
  have hheaded : session.Headed :=
    hgrows.invariant (fun _ _ hs => hs.headed) (Session.headed_ofInitializers _)
  obtain ⟨constants, user, raised⟩ := session
  have huser : user = compiled.user := by rw [hcompiled]
  subst huser
  refine ⟨compiled, Compiled.opening runtimeHeader, compiled.between, compiled.closing, hcompile,
    ?shared, ?split, hknown.nodup, hknown.mem_iff, UserTables.initializers_eq hknown.nodup,
    UserTables.perm_definitions hknown.nodup ?spaces, hheaded.nodup_definitions, ?entries⟩
  case shared =>
    rw [Grammar.generate_of_compile hcompile, Compiled.output_shared]
  case split =>
    rw [Grammar.generate_of_compile hcompile, Compiled.output_split,
      funext (compiled.spaceFile_eq _)]
  case spaces =>
    intro function hf
    exact (hknown.mem_iff function.space).mpr (Or.inr ⟨function, hf, rfl⟩)
  case entries =>
    intro table ht entry hentry
    have hlisted : entry.1 ∈ table.functions.toList := by
      rw [table.select_none] at hentry
      exact List.fst_mem_of_mem_zipIdx hentry
    have hfunction : entry.1 ∈ compiled.user.functions := by
      rcases List.mem_pair.mp ht with rfl | rfl
      · exact List.mem_append_left _ hlisted
      · exact List.mem_append_right _ hlisted
    have hdeclared : table.declaration entry ∈ table.declarations (some entry.1.space) :=
      List.mem_map_of_mem (table.mem_select_some.mpr ⟨hentry, rfl⟩)
    refine ⟨(hknown.mem_iff entry.1.space).mpr (Or.inr ⟨entry.1, hfunction, rfl⟩),
      hheaded.definition_mem_iff ht hentry, ?_, compiled.declaration_mem_between ht hentry⟩
    rcases List.mem_pair.mp ht with rfl | rfl
    · exact List.mem_append_left _ hdeclared
    · exact List.mem_append_right _ hdeclared

/-- An initializer in one namespace and an action in another. -/
theorem layouts_carry_one_program_of_two_spaces :
    let grammar : Grammar := ⟨[⟨"tools", "int calls;"⟩],
      [⟨"R", .action none ⟨"global", "calls++;"⟩ (.any none), none⟩]⟩
    ∃ compiled, grammar.compile .strict = (.ok compiled, []) ∧
      compiled.user.spaces.keys = ["tools", "global"] ∧
      (compiled.user.spaces.keys.flatMap fun space => compiled.user.definitions (some space)).Perm
        ["void f0(struct Context* context) \x7bcalls++;\x7d"] := by
  intro grammar
  have hgenerate : grammar.generate ⟨true, "peg-internal.h", "peg.h"⟩ .strict = (.ok _, []) := rfl
  obtain ⟨compiled, front, middle, back, hcompile, -, -, -, -, -, hperm, -⟩ :=
    layouts_carry_one_program hgenerate
  refine ⟨compiled, hcompile, ?_⟩
  have hthis : grammar.compile .strict = (.ok _, []) := rfl
  rw [hthis] at hcompile
  cases hcompile
  exact ⟨rfl, hperm⟩

end Backtrack
